import JnetLib.Foundation.Ledger
import JnetLib.Foundation.Transition

/-!
# The listeners of the server

`startHTTP` and `startHTTPS` leave one accept outstanding on their acceptor. Its callback calls
`cbOnConnected` for the new connection, closes the connection if that returns non-zero, and starts
the next accept, so that a listener lives on in the callbacks of its own accepts.

`on_http_accept` and `on_https_accept` differ in the SSL handshake only and share one definition
here. Contexts are numbered as they are created. What becomes of a connection behind its accept is
the matter of `ConnectionContext`.

Both callbacks start the next accept only if `cbOnConnected` returned zero. So the first rejected
connection ends the listener: `listening_iff` says that a listener has its one accept, outstanding
or being served, throughout exactly the runs in which no rejecting callback comes to its end.
-/

namespace JnetLib.Server

/-- The two listeners. -/
inductive Scheme
  | http
  | https
  deriving DecidableEq, Repr

/-- Where a thread is in the callback of a successful accept: in `cbOnConnected`; before `Close`;
before `Handshake`; before `CheckAndDelete`; before the test of `ret` behind it. -/
inductive AcceptPc
  | idle
  | connected (k : Scheme) (ctx : ℕ)
  | close (k : Scheme) (ctx : ℕ)
  | handshake (k : Scheme) (ctx : ℕ)
  | check (k : Scheme) (ctx : ℕ) (ret : Bool)
  | rearm (k : Scheme) (ret : Bool)
  deriving DecidableEq, Repr

/-- The listeners that were started, the contexts of the outstanding accepts, the number of contexts
created, the contexts `cbOnConnected` rejected and those the server closed, and the threads. -/
structure Listener (τ : Type) where
  started : Scheme → Bool
  accepts : Scheme → List ℕ
  contexts : ℕ
  rejected : List ℕ
  closed : List ℕ
  pcs : τ → AcceptPc

/-- A step: a listener is started; an accept succeeds and its callback begins; `cbOnConnected`
returns; the thread's next action. -/
inductive ListenerEvent (τ : Type)
  | start (k : Scheme)
  | accept (t : τ) (k : Scheme)
  | ret (t : τ) (ret : Bool)
  | step (t : τ)
  deriving DecidableEq, Repr

namespace Listener

variable {τ : Type} [DecidableEq τ]

/-- Move one thread. -/
def setPc (s : Listener τ) (t : τ) (pc : AcceptPc) : Listener τ :=
  { s with pcs := Function.update s.pcs t pc }

/-- A new context and the accept for it. -/
def asynAccept (s : Listener τ) (k : Scheme) : Listener τ :=
  { s with
    accepts := Function.update s.accepts k (s.accepts k ++ [s.contexts])
    contexts := s.contexts + 1 }

/-- The next action of a thread. -/
def act (s : Listener τ) (t : τ) : Option (Listener τ) :=
  match s.pcs t with
  | .idle | .connected _ _ => none
  | .close k ctx => some { s.setPc t (.check k ctx true) with closed := s.closed ++ [ctx] }
  | .handshake k ctx => some (s.setPc t (.check k ctx false))
  | .check k _ ret => some (s.setPc t (.rearm k ret))
  | .rearm k ret => some (if ret then s.setPc t .idle else (s.setPc t .idle).asynAccept k)

/-- The transitions of the listeners; `none` where a step cannot be taken. -/
def step (s : Listener τ) : ListenerEvent τ → Option (Listener τ)
  | .start k =>
    if s.started k then none
    else some { s.asynAccept k with started := Function.update s.started k true }
  | .accept t k =>
    match s.pcs t, s.accepts k with
    | .idle, ctx :: l =>
      some { s.setPc t (.connected k ctx) with accepts := Function.update s.accepts k l }
    | _, _ => none
  | .ret t ret =>
    match s.pcs t with
    | .connected k ctx =>
      if ret then some { s.setPc t (.close k ctx) with rejected := s.rejected ++ [ctx] }
      else if k = .https then some (s.setPc t (.handshake k ctx))
      else some (s.setPc t (.check k ctx false))
    | _ => none
  | .step t => s.act t

/-- A server before its first listener. -/
def initial : Listener τ := ⟨fun _ ↦ false, fun _ ↦ [], 0, [], [], fun _ ↦ .idle⟩

/-- A thread in the callback of an accept of the listener `k`. -/
def serving (k : Scheme) : AcceptPc → ℕ
  | .idle => 0
  | .connected k' _ | .close k' _ | .handshake k' _ | .check k' _ _ | .rearm k' _ =>
    if k' = k then 1 else 0

/-- The server keeps listening: a started listener has one accept, outstanding or being served by
its callback; and the server closes the connections that were rejected and no others, each before
its callback gets behind `Close`. -/
structure Listening [Fintype τ] (s : Listener τ) : Prop where
  armed : ∀ k, s.started k = true → (s.accepts k).length + tally (serving k) s.pcs = 1
  own : ∀ ctx ∈ s.closed, ctx ∈ s.rejected
  closes : ∀ ctx ∈ s.rejected, (∀ t k, s.pcs t ≠ .close k ctx) → ctx ∈ s.closed

/-- The step does not end the callback of a rejected connection. -/
def Goes (s : Listener τ) : ListenerEvent τ → Prop
  | .step t => ∀ k, s.pcs t ≠ .rearm k true
  | _ => True

instance (s : Listener τ) : DecidablePred s.Goes
  | .step t =>
    match h : s.pcs t with
    | .rearm k true => isFalse fun hg ↦ hg k h
    | .idle | .connected _ _ | .close _ _ | .handshake _ _ | .check _ _ _ | .rearm _ false =>
      isTrue fun k hk ↦ by simp [h] at hk
  | .start _ | .accept _ _ | .ret _ _ => inferInstanceAs (Decidable True)

section Invariant

variable [Fintype τ] {s s' : Listener τ} {t : τ}

/-- **The invariant.** The accepts of a listener and the threads serving one are one together if it
was started and none otherwise, and the connections closed or about to be are those rejected. -/
structure Armed (s : Listener τ) : Prop where
  armed : ∀ k, (s.accepts k).length + tally (serving k) s.pcs = if s.started k then 1 else 0
  own : ∀ ctx ∈ s.closed, ctx ∈ s.rejected
  closing : ∀ t k ctx, s.pcs t = .close k ctx → ctx ∈ s.rejected
  closes : ∀ ctx ∈ s.rejected, ctx ∈ s.closed ∨ ∃ t k, s.pcs t = .close k ctx

omit [DecidableEq τ] in
theorem Armed.listening (h : Armed s) : s.Listening :=
  ⟨fun k hk ↦ by rw [h.armed k, if_pos hk], h.own,
    fun ctx hctx hno ↦ (h.closes ctx hctx).resolve_right fun ⟨t, k, ht⟩ ↦ hno t k ht⟩

omit [DecidableEq τ] in
theorem armed_initial : Armed (initial : Listener τ) where
  armed k := by
    have hnone : tally (serving k) (initial : Listener τ).pcs = 0 := tally_of_forall fun _ ↦ rfl
    rw [hnone]
    rfl
  own := by simp [initial]
  closing := by simp [initial]
  closes := by simp [initial]

omit [Fintype τ] in
/-- Moving a thread that is not about to close a connection of its own. -/
theorem closing_update {pc : AcceptPc} {r : List ℕ} {pcs : τ → AcceptPc}
    (h : ∀ t k ctx, pcs t = .close k ctx → ctx ∈ r) (hpc : ∀ k ctx, pc = .close k ctx → ctx ∈ r)
    (t u : τ) (k : Scheme) (ctx : ℕ) (hu : Function.update pcs t pc u = .close k ctx) :
    ctx ∈ r := by
  rcases eq_or_ne u t with rfl | hne
  · rw [Function.update_self] at hu
    exact hpc k ctx hu
  · rw [Function.update_of_ne hne] at hu
    exact h u k ctx hu

omit [Fintype τ] in
/-- Moving a thread that is not about to close any. -/
theorem closes_update {pc : AcceptPc} {closed : List ℕ} {ctx : ℕ} {pcs : τ → AcceptPc}
    (h : ctx ∈ closed ∨ ∃ t k, pcs t = .close k ctx) (ht : ∀ k, pcs t ≠ .close k ctx) :
    ctx ∈ closed ∨ ∃ u k, Function.update pcs t pc u = .close k ctx := by
  refine h.imp_right fun ⟨u, k, hu⟩ ↦ ⟨u, k, ?_⟩
  have hne : u ≠ t := fun heq ↦ ht k (heq ▸ hu)
  rw [Function.update_of_ne hne, hu]

/-- A thread moves on inside the callback it is in. -/
theorem Armed.setPc {pc : AcceptPc} (h : Armed s) (hpc : ∀ k, serving k pc = serving k (s.pcs t))
    (hclose : ∀ k ctx, pc ≠ .close k ctx) (hnot : ∀ k ctx, s.pcs t ≠ .close k ctx) :
    Armed (s.setPc t pc) where
  armed k := by
    have hk := h.armed k
    rwa [← tally_update_of_eq (serving k) s.pcs (hpc k)] at hk
  own := h.own
  closing := closing_update h.closing (fun k ctx hpc ↦ absurd hpc (hclose k ctx)) t
  closes ctx hctx := closes_update (h.closes ctx hctx) fun k ↦ hnot k ctx

omit [DecidableEq τ] in
/-- A listener that was not started gets its first accept. -/
theorem Armed.start {k : Scheme} (h : Armed s) (hk : s.started k = false) :
    Armed { s.asynAccept k with started := Function.update s.started k true } where
  armed k' := by
    have hold := h.armed k'
    show (Function.update s.accepts k (s.accepts k ++ [s.contexts]) k').length +
      tally (serving k') s.pcs = if Function.update s.started k true k' then 1 else 0
    rcases eq_or_ne k' k with rfl | hne
    · rw [hk, if_neg Bool.false_ne_true] at hold
      rw [Function.update_self, Function.update_self, List.length_append, if_pos rfl,
        List.length_singleton]
      omega
    · rwa [Function.update_of_ne hne, Function.update_of_ne hne]
  own := h.own
  closing := h.closing
  closes := h.closes

/-- An accept succeeds: its callback takes its place. -/
theorem Armed.accept {k : Scheme} {ctx : ℕ} {l : List ℕ} (h : Armed s) (ht : s.pcs t = .idle)
    (hl : s.accepts k = ctx :: l) :
    Armed { s.setPc t (.connected k ctx) with accepts := Function.update s.accepts k l } where
  armed k' := by
    have hold := h.armed k'
    have htally := tally_update (serving k') s.pcs t (.connected k ctx)
    rw [ht] at htally
    show (Function.update s.accepts k l k').length +
      tally (serving k') (Function.update s.pcs t (.connected k ctx)) =
        if s.started k' then 1 else 0
    rcases eq_or_ne k' k with rfl | hne
    · rw [hl, List.length_cons] at hold
      rw [Function.update_self]
      simp only [serving, if_true] at htally
      omega
    · rw [Function.update_of_ne hne]
      simp only [serving, if_neg hne.symm] at htally
      omega
  own := h.own
  closing := closing_update h.closing (fun _ _ hpc ↦ AcceptPc.noConfusion hpc) t
  closes c hc := closes_update (h.closes c hc) fun k' hk ↦ by rw [ht] at hk; cases hk

/-- `cbOnConnected` rejects the connection. -/
theorem Armed.reject {k : Scheme} {ctx : ℕ} (h : Armed s) (ht : s.pcs t = .connected k ctx) :
    Armed { s.setPc t (.close k ctx) with rejected := s.rejected ++ [ctx] } where
  armed k' := by
    have hsame : serving k' (.close k ctx) = serving k' (s.pcs t) := by rw [ht]; rfl
    have hk := h.armed k'
    rwa [← tally_update_of_eq (serving k') s.pcs hsame] at hk
  own c hc := List.mem_append_left _ (h.own c hc)
  closing := by
    refine closing_update (fun u k' c hu ↦ List.mem_append_left _ (h.closing u k' c hu))
      (fun k' c hpc ↦ ?_) t
    obtain ⟨-, rfl⟩ := AcceptPc.close.inj hpc
    exact List.mem_append_right _ (List.mem_singleton_self _)
  closes c hc := by
    rcases List.mem_append.1 hc with hc | hc
    · exact closes_update (h.closes c hc) fun k' hk ↦ by rw [ht] at hk; cases hk
    · rw [List.mem_singleton.1 hc]
      exact .inr ⟨t, k, Function.update_self ..⟩

/-- The server closes the rejected connection. -/
theorem Armed.close {k : Scheme} {ctx : ℕ} (h : Armed s) (ht : s.pcs t = .close k ctx) :
    Armed { s.setPc t (.check k ctx true) with closed := s.closed ++ [ctx] } where
  armed k' := by
    have hsame : serving k' (.check k ctx true) = serving k' (s.pcs t) := by rw [ht]; rfl
    have hk := h.armed k'
    rwa [← tally_update_of_eq (serving k') s.pcs hsame] at hk
  own c hc := by
    rcases List.mem_append.1 hc with hc | hc
    · exact h.own c hc
    · rw [List.mem_singleton.1 hc]
      exact h.closing t k ctx ht
  closing := closing_update h.closing (fun _ _ hpc ↦ AcceptPc.noConfusion hpc) t
  closes c hc := by
    rcases eq_or_ne c ctx with rfl | hne
    · exact .inl (List.mem_append_right _ (List.mem_singleton_self _))
    · refine (closes_update (h.closes c hc) fun k' hk ↦ ?_).imp_left (List.mem_append_left _)
      exact hne (AcceptPc.close.inj (hk.symm.trans ht)).2

/-- The callback ends with the next accept. -/
theorem Armed.rearm {k : Scheme} (h : Armed s) (ht : s.pcs t = .rearm k false) :
    Armed ((s.setPc t .idle).asynAccept k) where
  armed k' := by
    have hold := h.armed k'
    have htally := tally_update (serving k') s.pcs t .idle
    rw [ht] at htally
    show (Function.update s.accepts k (s.accepts k ++ [s.contexts]) k').length +
      tally (serving k') (Function.update s.pcs t .idle) = if s.started k' then 1 else 0
    rcases eq_or_ne k' k with rfl | hne
    · rw [Function.update_self, List.length_append, List.length_singleton]
      simp only [serving, if_true] at htally
      omega
    · rw [Function.update_of_ne hne]
      simp only [serving, if_neg hne.symm] at htally
      omega
  own := h.own
  closing := closing_update h.closing (fun _ _ hpc ↦ AcceptPc.noConfusion hpc) t
  closes c hc := closes_update (h.closes c hc) fun k' hk ↦ by rw [ht] at hk; cases hk

/-- **Every step keeps the invariant** unless it ends the callback of a rejected connection. -/
theorem armed_step {e : ListenerEvent τ} (h : Armed s) (he : s.Goes e)
    (hstep : s.step e = some s') : Armed s' := by
  cases e with
  | start k =>
    rw [step] at hstep
    split at hstep
    case isTrue => cases hstep
    case isFalse hk =>
      obtain rfl := Option.some.inj hstep
      exact h.start (Bool.eq_false_iff.2 hk)
  | accept t k =>
    rw [step.eq_def] at hstep
    dsimp only at hstep
    split at hstep
    case h_2 => cases hstep
    case h_1 ctx l ht hl =>
      obtain rfl := Option.some.inj hstep
      exact h.accept ht hl
  | ret t ret =>
    rw [step.eq_def] at hstep
    dsimp only at hstep
    split at hstep
    case h_2 => cases hstep
    case h_1 k ctx ht =>
      split at hstep
      · obtain rfl := Option.some.inj hstep
        exact h.reject ht
      · split at hstep <;> obtain rfl := Option.some.inj hstep
        · exact h.setPc (fun k' ↦ by rw [ht]; rfl) (fun _ _ ↦ AcceptPc.noConfusion)
            fun k' c hk ↦ by rw [ht] at hk; cases hk
        · exact h.setPc (fun k' ↦ by rw [ht]; rfl) (fun _ _ ↦ AcceptPc.noConfusion)
            fun k' c hk ↦ by rw [ht] at hk; cases hk
  | step t =>
    have hact : s.act t = some s' := hstep
    rw [act] at hact
    split at hact
    case h_1 | h_2 => cases hact
    case h_3 k ctx ht =>
      obtain rfl := Option.some.inj hact
      exact h.close ht
    case h_4 k ctx ht =>
      obtain rfl := Option.some.inj hact
      exact h.setPc (fun k' ↦ by rw [ht]; rfl) (fun _ _ ↦ AcceptPc.noConfusion)
        fun k' c hk ↦ by rw [ht] at hk; cases hk
    case h_5 k ctx ret ht =>
      obtain rfl := Option.some.inj hact
      exact h.setPc (fun k' ↦ by rw [ht]; rfl) (fun _ _ ↦ AcceptPc.noConfusion)
        fun k' c hk ↦ by rw [ht] at hk; cases hk
    case h_6 k ret ht =>
      obtain rfl := Option.some.inj hact
      cases ret with
      | true => exact absurd ht (he k)
      | false => exact h.rearm ht

/-- The end of a rejecting callback leaves its listener without an accept. -/
theorem not_listening_of_rejected {e : ListenerEvent τ} (h : Armed s) (he : ¬s.Goes e)
    (hstep : s.step e = some s') : ¬s'.Listening := by
  cases e with
  | start _ | accept _ _ | ret _ _ => exact absurd trivial he
  | step t =>
    obtain ⟨k, ht⟩ : ∃ k, s.pcs t = .rearm k true := by
      by_contra hne
      exact he fun k hk ↦ hne ⟨k, hk⟩
    have hact : s.act t = some s' := hstep
    rw [act, ht] at hact
    obtain rfl := Option.some.inj hact
    intro hl
    have hold := h.armed k
    have hserving := le_tally (serving k) s.pcs t
    have htally := tally_update (serving k) s.pcs t .idle
    rw [ht] at hserving htally
    simp only [serving, if_true] at hserving htally
    have hstarted : s.started k = true := by
      by_contra hk
      rw [if_neg hk] at hold
      omega
    have hnew : (s.accepts k).length + tally (serving k) (Function.update s.pcs t .idle) = 1 :=
      hl.armed k hstarted
    rw [if_pos hstarted] at hold
    omega

/-- **The server keeps listening** throughout a run if and only if no callback of a rejected
connection comes to its end in it. -/
theorem listening_iff {l : List (ListenerEvent τ)} (hrun : Transition.run step initial l = some s) :
    Transition.Throughout step Listening (initial : Listener τ) l ↔
      Transition.RunMeets step Goes initial l :=
  Transition.throughout_iff (fun _ h ↦ h.listening) (fun _ _ _ h he hst ↦ armed_step h he hst)
    (fun _ _ _ h he hst ↦ not_listening_of_rejected h he hst) armed_initial hrun

end Invariant

/-- An HTTPS connection is accepted and taken: the listener goes on. -/
theorem listening_iff_taken :
    let l : List (ListenerEvent Unit) :=
      [.start .https, .accept () .https, .ret () false, .step (), .step (), .step ()]
    Transition.Throughout step Listening initial l ↔ Transition.RunMeets step Goes initial l := by
  intro l
  have hrun : Transition.run step initial l = some _ := rfl
  exact listening_iff hrun

/-- An HTTP connection is accepted and rejected: it is closed, and no accept is outstanding and no
thread is in a callback. -/
theorem not_listening_rejected :
    ∃ s, Transition.run step (initial : Listener Unit)
        [.start .http, .accept () .http, .ret () true, .step (), .step (), .step ()] = some s ∧
      s.started .http = true ∧ s.rejected = [0] ∧ s.closed = [0] ∧ s.accepts .http = [] ∧
        (∀ t, s.pcs t = .idle) ∧ ¬s.Listening := by
  refine ⟨_, rfl, rfl, rfl, rfl, rfl, fun _ ↦ rfl, fun h ↦ ?_⟩
  exact absurd (h.armed .http rfl) (by decide)

end Listener

end JnetLib.Server
