import JnetLib.Iocp.Routine

/-!
# One holder of an operation

`OneCallback` is a consequence of an invariant, `OneHolder`, which holds in every run in which the
operation is always resubmitted with `ready_` clear and the code behind a resubmission never takes
the operation for finished (`oneHolder_step`).

* It contains the soundness of the handshake (`Service.Sound`). A step of the service that is not
  one of the routine moves nothing of the routine.
* The modules of the two routines ask whether the two conditions are met: the first fails of
  `read_line_op`, which does not `reset`, and the second of `send_op`, which looks at the operation
  again.
* A step of the routine moves one thread, and `Move` lists the ways, so a fact about the places of
  the threads is a short case analysis (`forall_pcs_step`).
-/

namespace JnetLib.Iocp

namespace Lifecycle

variable {ι τ σ δ : Type} [DecidableEq ι] [DecidableEq τ]

/-- **The invariant**: the handshake on the operation is sound; only threads inside `complete` are
in the routine; and from the asynchronous call on, the operation is under way, or one thread has
it, or it is deleted. -/
structure OneHolder [Fintype τ] (me : ι) (s : Lifecycle ι τ σ) : Prop where
  sound : Sound (s.svc.ops me) (s.svc.tokens me)
  inside : ∀ t, s.pcs t ≠ .out → ∃ ec n, s.svc.threads t = .completing me ec n
  ledger : s.flights me + tally owns s.pcs + s.deletes =
    if (s.svc.ops me).submitted = [] then 0 else 1
  paired : s.calls.length = tally deletes_ s.pcs + s.deletes
  fresh : ∀ t, (∀ ec n, s.pcs t ≠ .finishing true ec n) ∧ s.pcs t ≠ .deleting true
  stale : s.stale = 0

section Invariant

variable [Fintype τ] {R : Routine σ δ} {me : ι} {s s' : Lifecycle ι τ σ} {t : τ}

theorem deletes_le_owns (pc : RoutinePc) : deletes_ pc ≤ owns pc := by
  cases pc <;> simp [deletes_, owns]

omit [DecidableEq τ] in
/-- What the invariant gives the caller. -/
theorem OneHolder.oneCallback (h : OneHolder me s) : s.OneCallback me := by
  have htally : tally deletes_ s.pcs ≤ tally owns s.pcs := tally_le_tally deletes_le_owns _
  have hledger : s.flights me + tally owns s.pcs + s.deletes ≤ 1 := by
    rw [h.ledger]
    split <;> simp
  have hpaired := h.paired
  refine ⟨by omega, by omega, fun hsub hrest hout ↦ ?_, h.fresh⟩
  have hflights : s.flights me = 0 := if_pos hrest
  have howns : tally owns s.pcs = 0 := tally_of_forall hout
  have := h.ledger
  rw [if_neg hsub] at this
  omega

omit [DecidableEq τ] in
/-- A thread that has the operation finds it at rest after a submission. -/
theorem OneHolder.resting_of_owns (h : OneHolder me s) (ht : owns (s.pcs t) = 1) :
    (s.svc.ops me).submitted ≠ [] ∧ (s.svc.ops me).submitted = (s.svc.ops me).invoked ∧
      s.deletes = 0 := by
  have hle := le_tally owns s.pcs t
  have hledger := h.ledger
  rw [ht] at hle
  split at hledger
  case isTrue => omega
  case isFalse hne =>
    refine ⟨hne, ?_, by omega⟩
    by_contra hrest
    have : s.flights me = 1 := if_neg hrest
    omega

omit [DecidableEq τ] in
/-- The flag is still set from the handshake that led to this invocation. -/
theorem OneHolder.ready_of_owns (h : OneHolder me s) (ht : owns (s.pcs t) = 1) :
    (s.svc.ops me).mem.ready = true := by
  obtain ⟨hne, hrest, -⟩ := h.resting_of_owns ht
  cases h.sound with
  | resting _ _ _ hr => exact hr hne
  | flying r _ hr _ _ =>
    rw [hrest] at hr
    simp at hr

omit [DecidableEq τ] [Fintype τ] [DecidableEq ι] in
theorem flights_of_record {svc : Service ι τ} (h : svc.record_ me = s.svc.record_ me) :
    flights me { s with svc := svc } = s.flights me ∧
      (svc.ops me).submitted = (s.svc.ops me).submitted := by
  obtain ⟨hsub, hinv⟩ := Prod.mk.inj h
  exact ⟨by rw [flights, flights, hsub, hinv], hsub⟩

omit [DecidableEq τ] in
/-- A step of the service that keeps the operation's record and the threads inside `complete`. -/
theorem OneHolder.service (h : OneHolder me s) {svc : Service ι τ}
    (hs : Sound (svc.ops me) (svc.tokens me))
    (hrec : svc.record_ me = s.svc.record_ me)
    (hin : ∀ t ec n, s.pcs t ≠ .out → s.svc.threads t = .completing me ec n →
      svc.threads t = .completing me ec n) : OneHolder me { s with svc := svc } := by
  obtain ⟨hflights, hsub⟩ := flights_of_record hrec
  refine ⟨hs, fun t ht ↦ ?_, ?_, h.paired, h.fresh, h.stale⟩
  · obtain ⟨ec, n, hc⟩ := h.inside t ht
    exact ⟨ec, n, hin t ec n ht hc⟩
  · rw [hflights, hsub]
    exact h.ledger

/-- A step of a thread inside the routine. -/
theorem OneHolder.move {pc : RoutinePc} (h : OneHolder me s) (hsvc : s'.svc = s.svc)
    (hpcs : s'.pcs = Function.update s.pcs t pc) (hstale : s'.stale = s.stale)
    (ht : s.pcs t ≠ .out) (howns : owns pc + s'.deletes = owns (s.pcs t) + s.deletes)
    (hpaired : s'.calls.length + deletes_ (s.pcs t) + s.deletes =
      s.calls.length + deletes_ pc + s'.deletes)
    (hfresh : (∀ ec n, pc ≠ .finishing true ec n) ∧ pc ≠ .deleting true) : OneHolder me s' := by
  have hledger := h.ledger
  have htally := tally_update owns s.pcs t pc
  have htally' := tally_update deletes_ s.pcs t pc
  have hcalls := h.paired
  refine ⟨hsvc ▸ h.sound, fun u hu ↦ ?_, ?_, ?_, fun u ↦ ?_, hstale.trans h.stale⟩
  · rw [hsvc]
    rcases eq_or_ne u t with rfl | hne
    · exact h.inside u ht
    · rw [hpcs, Function.update_of_ne hne] at hu
      exact h.inside u hu
  · rw [flights, hsvc, hpcs, ← hledger, flights]
    omega
  · rw [hpcs]
    omega
  · rw [hpcs]
    rcases eq_or_ne u t with rfl | hne
    · rw [Function.update_self]
      exact hfresh
    · rw [Function.update_of_ne hne]
      exact h.fresh u

/-- The service runs `complete`: the thread enters the routine. -/
theorem OneHolder.enter (h : OneHolder me s) {svc : Service ι τ} {ec : ErrorCode} {n : ℕ}
    (hs : Sound (svc.ops me) (svc.tokens me)) (hout : s.pcs t = .out)
    (ht : svc.threads t = .completing me ec n)
    (hops : svc.ops = Function.update s.svc.ops me
      { s.svc.ops me with invoked := (s.svc.ops me).invoked ++ [(ec, n)] })
    (hin : ∀ u ec n, s.pcs u ≠ .out → s.svc.threads u = .completing me ec n →
      svc.threads u = .completing me ec n) :
    OneHolder me { s.setPc t (.entered ec n) with svc := svc } := by
  have hsub : (svc.ops me).submitted = (s.svc.ops me).submitted := by
    rw [hops, Function.update_self]
  have hinv : (svc.ops me).invoked = (s.svc.ops me).invoked ++ [(ec, n)] := by
    rw [hops, Function.update_self]
  have hlast := h.sound.submitted_of_invoke hs hsub hinv
  have hrest : (s.svc.ops me).submitted ≠ (s.svc.ops me).invoked := by
    rw [hlast]
    simp
  have hrest' : (svc.ops me).submitted = (svc.ops me).invoked := by rw [hsub, hinv, hlast]
  have hflights : s.flights me = 1 := if_neg hrest
  have hflights' : flights me { s.setPc t (.entered ec n) with svc := svc } = 0 := if_pos hrest'
  have hledger := h.ledger
  have htally := tally_update owns s.pcs t (.entered ec n)
  have htally' := tally_update deletes_ s.pcs t (.entered ec n)
  have hpaired := h.paired
  rw [hout] at htally htally'
  refine ⟨hs, fun u hu ↦ ?_, ?_, ?_, fun u ↦ ?_, h.stale⟩
  · rcases eq_or_ne u t with rfl | hne
    · exact ⟨ec, n, ht⟩
    · have hu' : s.pcs u ≠ .out := by
        rwa [show (setPc s t (.entered ec n)).pcs u = s.pcs u from Function.update_of_ne hne ..]
          at hu
      obtain ⟨ec', n', hc⟩ := h.inside u hu'
      exact ⟨ec', n', hin u ec' n' hu' hc⟩
  · rw [hflights', hsub, ← hledger, hflights]
    simp only [setPc, owns] at htally ⊢
    omega
  · simp only [setPc, deletes_] at htally' ⊢
    omega
  · show (∀ ec' n', Function.update s.pcs t (.entered ec n) u ≠ _) ∧
      Function.update s.pcs t (.entered ec n) u ≠ _
    rcases eq_or_ne u t with rfl | hne
    · simp
    · rw [Function.update_of_ne hne]
      exact h.fresh u

omit [DecidableEq τ] in
/-- A submission at rest puts the operation under way; whoever makes it gives the operation up. -/
theorem OneHolder.submit {rst : Bool} {ov : ErrorCode × ℕ} {o : Issued} {svc : Service ι τ}
    (h : OneHolder me s) (hsvc : s'.svc = svc) (hsubmit : s.svc.submit me rst ov o = some svc)
    (hrest : (s.svc.ops me).submitted = (s.svc.ops me).invoked)
    (hclear : (if rst then .reset else (s.svc.ops me).mem).ready = false)
    (hin : ∀ u, s'.pcs u ≠ .out → s.pcs u ≠ .out)
    (hledger : tally owns s'.pcs + s'.deletes = 0)
    (hpaired : s'.calls.length = tally deletes_ s'.pcs + s'.deletes)
    (hfresh : ∀ u, (∀ ec n, s'.pcs u ≠ .finishing true ec n) ∧ s'.pcs u ≠ .deleting true)
    (hstale : s'.stale = 0) : OneHolder me s' := by
  obtain ⟨hrec, -, hthreads⟩ := Service.submit_cases hsubmit
  obtain ⟨hsub, hinv⟩ := Prod.mk.inj hrec
  have hflights : s'.flights me = 1 := if_neg (by rw [hsvc, hsub, hinv, hrest]; simp)
  refine ⟨?_, fun u hu ↦ ?_, ?_, hpaired, hfresh, hstale⟩
  · rw [hsvc]
    exact Service.sound_submit hsubmit h.sound hrest hclear
  · rw [hsvc, hthreads]
    exact h.inside u (hin u hu)
  · rw [hflights, hsvc, hsub, if_neg (by simp)]
    omega

theorem OneHolder.step_service {e : Event ι τ} (h : OneHolder me s)
    (hstep : s.service me e = some s') :
    OneHolder me s' := by
  rw [Lifecycle.service] at hstep
  split at hstep
  case isFalse => cases hstep
  case isTrue hf =>
    obtain ⟨svc, hsvc, hs'⟩ := Option.map_eq_some_iff.1 hstep
    have hfresh : s.svc.Fresh me e := by
      cases e <;> first | trivial | exact fun hji ↦ absurd hji hf
    have hsound := Service.sound_step h.sound hfresh hsvc
    have hin : ∀ u ec n, s.pcs u ≠ .out → s.svc.threads u = .completing me ec n →
        svc.threads u = .completing me ec n := fun u ec n hu hc ↦
      Service.threads_of_completing hsvc hc fun he ↦ by
        subst he
        exact hu hf
    by_cases hex : ∃ t, e = .exchange t
    · obtain ⟨t, rfl⟩ := hex
      dsimp only at hs'
      obtain ⟨j, ec, n, ht, ⟨hc, hops⟩ | ⟨htop, hrec⟩⟩ := Service.exchange_cases hsvc
      · rw [hc] at hs'
        dsimp only at hs'
        split at hs' <;> subst hs'
        case isTrue hj =>
          subst hj
          refine h.enter hsound ?_ hc hops hin
          by_contra hout
          obtain ⟨ec', n', hc'⟩ := h.inside t hout
          rw [ht] at hc'
          cases hc'
        case isFalse hj =>
          refine h.service hsound ?_ hin
          rw [Service.record_, hops, Function.update_of_ne (Ne.symm hj)]
          rfl
      · rw [htop] at hs'
        subst hs'
        exact h.service hsound (hrec me) hin
    · have hs'' : { s with svc := svc } = s' := by
        cases e <;> first | exact hs' | exact absurd ⟨_, rfl⟩ hex
      rw [← hs'']
      refine h.service hsound (Service.record_of_step hsvc (fun rst ov o he ↦ ?_)
        fun t he ↦ hex ⟨t, he⟩) hin
      subst he
      exact hf rfl

/-- Leaving the initiating functions moves at most the thread that resubmitted. -/
theorem OneHolder.leave (h : OneHolder me s) (w : Option τ) : OneHolder me (s.leave w) := by
  cases w with
  | none => exact ⟨h.sound, h.inside, h.ledger, h.paired, h.fresh, h.stale⟩
  | some t =>
    rw [Lifecycle.leave]
    split
    case h_1 ec ht =>
      exact h.move rfl rfl rfl (by simp [ht]) (by simp [ht, owns, setPc])
        (by simp [ht, deletes_, setPc]) (by simp)
    case h_2 => exact ⟨h.sound, h.inside, h.ledger, h.paired, h.fresh, h.stale⟩

theorem OneHolder.step_initiate {ok : Bool} (h : OneHolder me s)
    (hstep : s.initiate me ok = some s') :
    OneHolder me s' := by
  rw [Lifecycle.initiate] at hstep
  split at hstep
  case h_1 => cases hstep
  case h_2 w hw =>
    obtain ⟨svc, hsvc, hs'⟩ := Option.map_eq_some_iff.1 hstep
    replace hsvc : s.svc.step (.initiate me ok) = some svc := hsvc
    have hk : OneHolder me { s with svc := svc } :=
      h.service (Service.sound_step (e := .initiate me ok) h.sound trivial hsvc)
        (Service.record_of_step hsvc (by simp) (by simp))
        fun u ec n _ hc ↦ Service.threads_of_completing hsvc hc (by simp)
    rw [← hs']
    split
    · exact hk.leave w
    · exact hk

omit [DecidableEq τ] in
/-- The asynchronous call. -/
theorem OneHolder.step_asyn {ov : ErrorCode × ℕ} {o : Issued} (h : OneHolder me s)
    (hstep : s.asyn R me ov o = some s') :
    OneHolder me s' := by
  rw [Lifecycle.asyn] at hstep
  split at hstep
  case isFalse => cases hstep
  case isTrue hc =>
    obtain ⟨svc, hsvc, rfl⟩ := Option.map_eq_some_iff.1 hstep
    have hrest : (s.svc.ops me).submitted = (s.svc.ops me).invoked := by
      cases h.sound with
      | resting hr _ _ _ => exact hr
      | flying r _ hr _ _ => rw [hc.1] at hr; simp at hr
    have hledger := h.ledger
    rw [if_pos hc.1] at hledger
    exact h.submit rfl hsvc hrest rfl (fun u hu ↦ hu)
      (by show tally owns s.pcs + s.deletes = 0; omega)
      h.paired h.fresh h.stale

/-- A resubmission with the flag clear. -/
theorem OneHolder.step_resubmit {ov : ErrorCode × ℕ} {o : Issued} (h : OneHolder me s)
    (hok : R.resets = true ∨ (s.svc.ops me).mem.ready = false)
    (hstep : s.resubmit R me t ov o = some s') : OneHolder me s' := by
  rw [Lifecycle.resubmit] at hstep
  split at hstep
  case h_2 => cases hstep
  case h_1 ec requested ht =>
    split at hstep
    case isFalse => cases hstep
    case isTrue =>
      obtain ⟨svc, hsvc, rfl⟩ := Option.map_eq_some_iff.1 hstep
      obtain ⟨hne, hrest, hdel⟩ := h.resting_of_owns (t := t) (by rw [ht]; rfl)
      have hclear : (if R.resets then .reset else (s.svc.ops me).mem).ready = false := by
        split
        · rfl
        · exact hok.resolve_left ‹_›
      have htally := tally_update owns s.pcs t (.resubmitting ec)
      have hledger := h.ledger
      rw [ht] at htally
      rw [if_neg hne] at hledger
      refine h.submit rfl hsvc hrest hclear (fun u hu ↦ ?_) ?_ ?_ (fun u ↦ ?_) ?_
      · rcases eq_or_ne u t with rfl | hut
        · simp [ht]
        · rwa [show (setPc s t (.resubmitting ec)).pcs u = s.pcs u from
            Function.update_of_ne hut ..] at hu
      · show tally owns (Function.update s.pcs t (.resubmitting ec)) + s.deletes = 0
        simp only [owns] at htally
        omega
      · show s.calls.length =
          tally deletes_ (Function.update s.pcs t (.resubmitting ec)) + s.deletes
        rw [tally_update_of_eq deletes_ s.pcs (by rw [ht]; rfl)]
        exact h.paired
      · show (∀ ec' n', Function.update s.pcs t (.resubmitting ec) u ≠ _) ∧
          Function.update s.pcs t (.resubmitting ec) u ≠ _
        rcases eq_or_ne u t with rfl | hut
        · simp
        · rw [Function.update_of_ne hut]
          exact h.fresh u
      · have hmem := (Service.submit_cases hsvc).2.1
        show s.stale + (if (svc.ops me).mem.ready then 1 else 0) = 0
        rw [hmem, hclear, h.stale]
        rfl

omit [DecidableEq ι] [Fintype τ] in
/-- The step of an invocation that will resubmit. -/
theorem complete_of_again {d : δ} {ec : ErrorCode} {n m : ℕ} {op : σ}
    (ht : s.pcs t = .entered ec n) (hr : R.complete s.op d ec n = some (op, .again m)) :
    s.complete R t d = some { s.setPc t (.retrying ec m) with op := op } := by
  rw [Lifecycle.complete, ht]
  dsimp only
  rw [hr]
  rfl

/-- **Every careful step keeps the invariant.** -/
theorem oneHolder_step {e : LifecycleEvent ι τ σ δ} (h : OneHolder me s)
    (he : s.ResubmitsClear R me e)
    (hstep : s.step R me e = some s') : OneHolder me s' := by
  cases e with
  | service e => exact h.step_service hstep
  | asyn ov o => exact h.step_asyn hstep
  | initiate ok => exact h.step_initiate hstep
  | resubmit t ov o => exact h.step_resubmit he hstep
  | complete t d =>
    rw [Lifecycle.step, Lifecycle.complete] at hstep
    split at hstep
    case h_2 => cases hstep
    case h_1 ec n ht =>
      obtain ⟨r, -, rfl⟩ := Option.map_eq_some_iff.1 hstep
      have hin : s.pcs t ≠ .out := by simp [ht]
      split
      · exact h.move rfl rfl rfl hin (by rw [ht]; rfl) (by rw [ht]; rfl) (by simp)
      · exact h.move rfl rfl rfl hin (by rw [ht]; rfl) (by rw [ht]; rfl) (by simp)
  | recheck t garbage =>
    rw [Lifecycle.step, Lifecycle.recheck] at hstep
    split at hstep
    case h_2 => cases hstep
    case h_1 ec ht =>
      rw [he ec ht] at hstep
      obtain rfl := Option.some.inj hstep
      exact h.move rfl rfl rfl (by simp [ht]) (by rw [ht]; rfl) (by rw [ht]; rfl) (by simp)
  | callback t =>
    rw [Lifecycle.step, Lifecycle.callback] at hstep
    split at hstep
    case h_2 => cases hstep
    case h_1 b ec n ht =>
      have hb : b ≠ true := fun hb ↦ (h.fresh t).1 ec n (hb ▸ ht)
      obtain rfl := Option.some.inj hstep
      refine h.move rfl rfl rfl (by simp [ht]) (by rw [ht]; rfl) ?_ (by simp [hb])
      rw [ht]
      simp only [deletes_, List.length_append, List.length_singleton]
      rfl
  | delete t =>
    rw [Lifecycle.step, Lifecycle.delete] at hstep
    split at hstep
    case h_2 => cases hstep
    case h_1 b ht =>
      obtain rfl := Option.some.inj hstep
      refine h.move rfl rfl rfl (by simp [ht]) ?_ ?_ (by simp)
      · rw [ht]
        simp only [owns]
        omega
      · rw [ht]
        simp only [setPc, deletes_]
        omega

omit [DecidableEq τ] in
theorem oneHolder_start (mem : ι → Operation) (d : Bool) (op : σ) :
    OneHolder me (start mem d op : Lifecycle ι τ σ) where
  sound := Service.sound_start mem d me
  inside t ht := absurd rfl ht
  ledger := by
    have htally : tally owns (start mem d op : Lifecycle ι τ σ).pcs = 0 :=
      tally_of_forall fun _ ↦ rfl
    rw [htally]
    rfl
  paired := by
    have htally : tally deletes_ (start mem d op : Lifecycle ι τ σ).pcs = 0 :=
      tally_of_forall fun _ ↦ rfl
    rw [htally]
    rfl
  fresh t := by simp [start]
  stale := rfl

omit [Fintype τ] in
/-- A resubmission that leaves the flag set is counted. -/
theorem stale_of_resubmit {ov : ErrorCode × ℕ} {o : Issued} (hR : R.resets = false)
    (hready : (s.svc.ops me).mem.ready = true) (hstep : s.resubmit R me t ov o = some s') :
    s'.stale ≠ 0 := by
  rw [Lifecycle.resubmit] at hstep
  split at hstep
  case h_2 => cases hstep
  case h_1 =>
    split at hstep
    case isFalse => cases hstep
    case isTrue =>
      obtain ⟨svc, hsvc, rfl⟩ := Option.map_eq_some_iff.1 hstep
      have hmem := (Service.submit_cases hsvc).2.1
      rw [hR, if_neg Bool.false_ne_true, hready] at hmem
      show s.stale + (if (svc.ops me).mem.ready then 1 else 0) ≠ 0
      rw [hmem, if_pos rfl]
      exact Nat.succ_ne_zero _

/-- Without `reset`, every resubmission leaves it set. -/
theorem OneHolder.stale_of_resubmit {ov : ErrorCode × ℕ} {o : Issued} (h : OneHolder me s)
    (hR : R.resets = false) (hstep : s.resubmit R me t ov o = some s') : s'.stale ≠ 0 := by
  refine Lifecycle.stale_of_resubmit hR (h.ready_of_owns (t := t) ?_) hstep
  rw [Lifecycle.resubmit] at hstep
  split at hstep
  case h_1 ht => rw [ht]; rfl
  case h_2 => cases hstep

/-- What holds of an operation whose resubmissions all find the flag clear. -/
structure Unhurried (me : ι) (s : Lifecycle ι τ σ) : Prop extends s.OneCallback me where
  /-- Each submission is completed once, with its own result. -/
  handshake : s.svc.Handshake me
  /-- No resubmission was made with `ready_` set. -/
  stale : s.stale = 0

omit [DecidableEq τ] in
theorem OneHolder.unhurried (h : OneHolder me s) : s.Unhurried me :=
  ⟨h.oneCallback, Service.handshake_of_sound h.sound, h.stale⟩

/-- How a step moves a thread through the routine. -/
inductive Move (R : Routine σ δ) (s : Lifecycle ι τ σ) :
    LifecycleEvent ι τ σ δ → τ → RoutinePc → Prop
  | enter (t : τ) (ec : ErrorCode) (n : ℕ) : Move R s (.service (.exchange t)) t (.entered ec n)
  | finish {t : τ} {d : δ} {ec ec' : ErrorCode} {n n' : ℕ} {op : σ} (ht : s.pcs t = .entered ec n)
      (hr : R.complete s.op d ec n = some (op, .finish ec' n')) :
      Move R s (.complete t d) t (.finishing false ec' n')
  | again {t : τ} {d : δ} {ec : ErrorCode} {n m : ℕ} {op : σ} (ht : s.pcs t = .entered ec n)
      (hr : R.complete s.op d ec n = some (op, .again m)) :
      Move R s (.complete t d) t (.retrying ec m)
  | resubmit {t : τ} {ov : ErrorCode × ℕ} {o : Issued} {ec : ErrorCode} {m : ℕ}
      (ht : s.pcs t = .retrying ec m) : Move R s (.resubmit t ov o) t (.resubmitting ec)
  | through {t : τ} {ok : Bool} {ec : ErrorCode} (ht : s.pcs t = .resubmitting ec) :
      Move R s (.initiate ok) t (.rechecking ec)
  | leave {t : τ} {g : σ} {ec : ErrorCode} (ht : s.pcs t = .rechecking ec)
      (hr : R.recheck (if s.deletes = 0 then s.op else g) ec = none) :
      Move R s (.recheck t g) t .out
  | late {t : τ} {g : σ} {ec : ErrorCode} {r : ErrorCode × ℕ} (ht : s.pcs t = .rechecking ec)
      (hr : R.recheck (if s.deletes = 0 then s.op else g) ec = some r) :
      Move R s (.recheck t g) t (.finishing true r.1 r.2)
  | call {t : τ} {b : Bool} {ec : ErrorCode} {n : ℕ} (ht : s.pcs t = .finishing b ec n) :
      Move R s (.callback t) t (.deleting b)
  | delete {t : τ} {b : Bool} (ht : s.pcs t = .deleting b) : Move R s (.delete t) t .out

omit [Fintype τ] in
/-- A step moves one thread or none. -/
theorem pcs_cases {e : LifecycleEvent ι τ σ δ} (hstep : s.step R me e = some s') :
    s'.pcs = s.pcs ∨ ∃ t pc, s'.pcs = Function.update s.pcs t pc ∧ Move R s e t pc := by
  cases e with
  | service e =>
    rw [Lifecycle.step, Lifecycle.service] at hstep
    split at hstep
    case isFalse => cases hstep
    case isTrue =>
      obtain ⟨svc, -, rfl⟩ := Option.map_eq_some_iff.1 hstep
      -- an exchange that finds `ready_` set takes its thread into the routine
      dsimp only
      split
      · split
        · split
          · exact .inr ⟨_, _, rfl, .enter ..⟩
          · exact .inl rfl
        · exact .inl rfl
      · exact .inl rfl
  | asyn ov o =>
    rw [Lifecycle.step, Lifecycle.asyn] at hstep
    split at hstep
    case isFalse => cases hstep
    case isTrue =>
      obtain ⟨svc, -, rfl⟩ := Option.map_eq_some_iff.1 hstep
      exact .inl rfl
  | initiate ok =>
    rw [Lifecycle.step, Lifecycle.initiate] at hstep
    split at hstep
    case h_1 => cases hstep
    case h_2 w hw =>
      obtain ⟨svc, -, rfl⟩ := Option.map_eq_some_iff.1 hstep
      split
      · -- the initiating functions return to the caller, or to the routine that called them again
        cases w with
        | none => exact .inl rfl
        | some t =>
          rw [Lifecycle.leave]
          split
          case h_1 ec ht => exact .inr ⟨t, _, rfl, .through ht⟩
          case h_2 => exact .inl rfl
      · exact .inl rfl
  | complete t d =>
    rw [Lifecycle.step, Lifecycle.complete] at hstep
    split at hstep
    case h_2 => cases hstep
    case h_1 ec n ht =>
      obtain ⟨⟨op, v⟩, hr, rfl⟩ := Option.map_eq_some_iff.1 hstep
      cases v with
      | finish ec' n' => exact .inr ⟨t, _, rfl, .finish ht hr⟩
      | again m => exact .inr ⟨t, _, rfl, .again ht hr⟩
  | resubmit t ov o =>
    rw [Lifecycle.step, Lifecycle.resubmit] at hstep
    split at hstep
    case h_2 => cases hstep
    case h_1 ec m ht =>
      split at hstep
      case isFalse => cases hstep
      case isTrue =>
        obtain ⟨svc, -, rfl⟩ := Option.map_eq_some_iff.1 hstep
        exact .inr ⟨t, _, rfl, .resubmit ht⟩
  | recheck t garbage =>
    rw [Lifecycle.step, Lifecycle.recheck] at hstep
    split at hstep
    case h_2 => cases hstep
    case h_1 ec ht =>
      split at hstep <;> obtain rfl := Option.some.inj hstep
      case h_1 hr => exact .inr ⟨t, _, rfl, .leave ht hr⟩
      case h_2 r hr => exact .inr ⟨t, _, rfl, .late ht hr⟩
  | callback t =>
    rw [Lifecycle.step, Lifecycle.callback] at hstep
    split at hstep
    case h_2 => cases hstep
    case h_1 b ec n ht =>
      obtain rfl := Option.some.inj hstep
      exact .inr ⟨t, _, rfl, .call ht⟩
  | delete t =>
    rw [Lifecycle.step, Lifecycle.delete] at hstep
    split at hstep
    case h_2 => cases hstep
    case h_1 b ht =>
      obtain rfl := Option.some.inj hstep
      exact .inr ⟨t, _, rfl, .delete ht⟩

omit [Fintype τ] in
/-- A property of all threads, from the moves that could break it. -/
theorem forall_pcs_step {P : RoutinePc → Prop} {e : LifecycleEvent ι τ σ δ}
    (h : ∀ t, P (s.pcs t)) (hmove : ∀ t pc, Move R s e t pc → P pc)
    (hstep : s.step R me e = some s') (t : τ) : P (s'.pcs t) := by
  obtain hpcs | ⟨u, pc, hpcs, hm⟩ := pcs_cases hstep
  · exact hpcs ▸ h t
  · rw [hpcs]
    rcases eq_or_ne t u with rfl | hne
    · rw [Function.update_self]
      exact hmove t pc hm
    · rw [Function.update_of_ne hne]
      exact h t

end Invariant

end Lifecycle

end JnetLib.Iocp
