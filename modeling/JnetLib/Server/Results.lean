import JnetLib.Base.ErrorCode
import JnetLib.Foundation.Transition

/-!
# The result fields of a server connection

`on_send` and `on_receive` hand their results to the user through fields of the context, which the
user's callback reads. There is one set of fields for both directions, and the two callbacks may run
on two service threads at once.

Each assignment, each read of the user's callback and each return is a step here. `own_of_run` says
that every read yields the result of the operation the callback is for in the runs in which no
callback assigns to a field while another callback holds it, that is, between its own assignment to
the field and its return. `not_own_crossed` is a run in which the receive's count lands in the
callback of the send.

## What the theorem rests on

`Assigned` is kept by every step that assigns to no field another thread holds: a field that a
callback holds has the value of its own operation, and a callback holds a field from its assignment
on. So what it reads is its own (`mem_assigns`). The condition is about steps, not about their
outcome: an assignment to a field that is held does no harm if the value is the same, or if the
other callback reads the field no more.
-/

namespace JnetLib.Server

/-- The fields for the user's callbacks. -/
inductive Field
  | ec
  | bytesTransferred
  | bytesReceived
  deriving DecidableEq, Repr

/-- What a field holds: an error code, or a count or an address. -/
inductive Value
  | error (ec : ErrorCode)
  | number (n : ℕ)
  deriving DecidableEq, Repr

/-- A completed operation and its result. -/
inductive Completion
  | send (ec : ErrorCode) (bytes : ℕ)
  | receive (ec : ErrorCode) (bytes : ℕ) (buf : ℕ)
  deriving DecidableEq, Repr

namespace Completion

/-- The error code of the operation. -/
def ec : Completion → ErrorCode
  | .send ec _ | .receive ec _ _ => ec

/-- The count of the operation. -/
def bytes : Completion → ℕ
  | .send _ n | .receive _ n _ => n

/-- What the operation has to say in a field; a send has nothing to say on `bytes_received_`. -/
def value (c : Completion) : Field → Option Value
  | .ec => some (.error c.ec)
  | .bytesTransferred => some (.number c.bytes)
  | .bytesReceived =>
    match c with
    | .send _ _ => none
    | .receive _ _ buf => some (.number buf)

/-- The assignments of `on_send` and of `on_receive`, in their order. -/
def assigns : Completion → List Field
  | .send _ _ => [.bytesTransferred, .ec]
  | .receive _ _ _ => [.bytesTransferred, .ec, .bytesReceived]

end Completion

/-- Where a thread is: in `on_send` or `on_receive` with the assignments made and those to come, in
the user's callback once there are none to come; or in neither. -/
inductive ResultPc
  | idle
  | running (c : Completion) (done todo : List Field)
  deriving DecidableEq, Repr

/-- A read of the user's callback for `c`. -/
structure Read where
  completion : Completion
  field : Field
  seen : Value
  deriving DecidableEq, Repr

/-- The fields, the threads, and the reads so far. -/
structure Results (τ : Type) where
  fields : Field → Value
  pcs : τ → ResultPc
  reads : List Read

/-- A step: `on_send` or `on_receive` begins; the thread makes its next assignment; the user's
callback reads a field; the callback returns. -/
inductive ResultEvent (τ : Type)
  | begin (t : τ) (c : Completion)
  | assign (t : τ)
  | read (t : τ) (f : Field)
  | ret (t : τ)
  deriving DecidableEq, Repr

namespace Results

variable {τ : Type} [DecidableEq τ]

/-- Move one thread. -/
def setPc (s : Results τ) (t : τ) (pc : ResultPc) : Results τ :=
  { s with pcs := Function.update s.pcs t pc }

/-- A thread after a move: the one that moved, or another. -/
theorem setPc_cases {s : Results τ} {t u : τ} {pc pc' : ResultPc}
    (h : (s.setPc t pc).pcs u = pc') : u = t ∧ pc = pc' ∨ u ≠ t ∧ s.pcs u = pc' := by
  rcases eq_or_ne u t with rfl | hne
  · have hu : (s.setPc u pc).pcs u = pc := by simp [setPc]
    exact .inl ⟨rfl, hu.symm.trans h⟩
  · have hu : (s.setPc t pc).pcs u = s.pcs u := by simp [setPc, hne]
    exact .inr ⟨hne, hu.symm.trans h⟩

/-- The transitions of the callbacks. A callback reads the fields its operation has something to say
in. -/
def step (s : Results τ) : ResultEvent τ → Option (Results τ)
  | .begin t c =>
    match s.pcs t with
    | .idle => some (s.setPc t (.running c [] c.assigns))
    | _ => none
  | .assign t =>
    match s.pcs t with
    | .running c done (f :: todo) =>
      (c.value f).map fun v ↦
        { s.setPc t (.running c (f :: done) todo) with fields := Function.update s.fields f v }
    | _ => none
  | .read t f =>
    match s.pcs t with
    | .running c _ [] =>
      (c.value f).map fun _ ↦ { s with reads := s.reads ++ [⟨c, f, s.fields f⟩] }
    | _ => none
  | .ret t =>
    match s.pcs t with
    | .running _ _ [] => some (s.setPc t .idle)
    | _ => none

/-- A context on which no operation has completed. -/
def start (fields : Field → Value) : Results τ := ⟨fields, fun _ ↦ .idle, []⟩

/-- Every read yields the result of the operation the callback is for. -/
def Own (s : Results τ) : Prop := ∀ r ∈ s.reads, r.completion.value r.field = some r.seen

/-- The thread has assigned the field and not returned. -/
def Holds (f : Field) : ResultPc → Prop
  | .idle => False
  | .running _ done _ => f ∈ done

instance (f : Field) : DecidablePred (Holds f)
  | .idle => inferInstanceAs (Decidable False)
  | .running _ done _ => inferInstanceAs (Decidable (f ∈ done))

/-- The next assignment of a thread. -/
def nextField : ResultPc → Option Field
  | .running _ _ (f :: _) => some f
  | _ => none

/-- No other thread holds the field the step assigns. -/
def Alone (s : Results τ) : ResultEvent τ → Prop
  | .assign t => ∀ f ∈ nextField (s.pcs t), ∀ u, u ≠ t → ¬Holds f (s.pcs u)
  | _ => True

instance [Fintype τ] (s : Results τ) : DecidablePred s.Alone
  | .assign t => inferInstanceAs (Decidable (∀ f ∈ nextField (s.pcs t), ∀ u, u ≠ t → _))
  | .begin _ _ | .read _ _ | .ret _ => inferInstanceAs (Decidable True)

section Invariant

variable {s s' : Results τ} {t : τ}

/-- **The invariant.** A thread's assignments are those of its callback, a field it holds has the
value of its operation, and the reads so far were right. -/
structure Assigned (s : Results τ) : Prop where
  assigns : ∀ t c done todo, s.pcs t = .running c done todo → c.assigns = done.reverse ++ todo
  held : ∀ t c done todo, s.pcs t = .running c done todo → ∀ f ∈ done,
    c.value f = some (s.fields f)
  own : s.Own

omit [DecidableEq τ] in
theorem assigned_start (fields : Field → Value) : Assigned (start fields : Results τ) :=
  ⟨fun _ _ _ _ h ↦ ResultPc.noConfusion h, fun _ _ _ _ h ↦ ResultPc.noConfusion h,
    fun _ hr ↦ absurd hr List.not_mem_nil⟩

/-- A callback reads only what it has assigned. -/
theorem mem_assigns {c : Completion} {f : Field} {v : Value} (h : c.value f = some v) :
    f ∈ c.assigns := by
  cases c <;> cases f <;> simp [Completion.assigns, Completion.value] at h ⊢

/-- A thread that begins or returns. -/
theorem Assigned.setPc {pc : ResultPc} (h : Assigned s)
    (hassigns : ∀ c done todo, pc = .running c done todo → done = [] ∧ c.assigns = todo) :
    Assigned (s.setPc t pc) where
  assigns u c done todo hu := by
    rcases setPc_cases hu with ⟨-, hpc⟩ | ⟨-, hu⟩
    · obtain ⟨rfl, hc⟩ := hassigns c done todo hpc
      exact hc
    · exact h.assigns u c done todo hu
  held u c done todo hu f hf := by
    rcases setPc_cases hu with ⟨-, hpc⟩ | ⟨-, hu⟩
    · obtain ⟨rfl, -⟩ := hassigns c done todo hpc
      exact absurd hf List.not_mem_nil
    · exact h.held u c done todo hu f hf
  own := h.own

/-- An assignment to a field no other thread holds. -/
theorem Assigned.assign {c : Completion} {done todo : List Field} {f : Field} {v : Value}
    (h : Assigned s)
    (ht : s.pcs t = .running c done (f :: todo)) (hv : c.value f = some v)
    (halone : ∀ u, u ≠ t → ¬Holds f (s.pcs u)) :
    Assigned { s.setPc t (.running c (f :: done) todo) with
      fields := Function.update s.fields f v } where
  assigns u c' done' todo' hu := by
    rcases setPc_cases hu with ⟨-, hpc⟩ | ⟨-, hu⟩
    · obtain ⟨rfl, rfl, rfl⟩ := ResultPc.running.inj hpc
      rw [h.assigns t c done (f :: todo) ht, List.reverse_cons, List.append_assoc,
        List.singleton_append]
    · exact h.assigns u c' done' todo' hu
  held u c' done' todo' hu g hg := by
    show c'.value g = some (Function.update s.fields f v g)
    rcases setPc_cases hu with ⟨-, hpc⟩ | ⟨hne, hu'⟩
    · obtain ⟨rfl, rfl, rfl⟩ := ResultPc.running.inj hpc
      rcases eq_or_ne g f with rfl | hgf
      · rw [Function.update_self, hv]
      · rw [Function.update_of_ne hgf]
        exact h.held t c done (f :: todo) ht g ((List.mem_cons.1 hg).resolve_left hgf)
    · -- the other thread does not hold the field, so what it holds is another one
      have hgf : g ≠ f := by
        rintro rfl
        exact halone u hne (by rw [hu']; exact hg)
      rw [Function.update_of_ne hgf]
      exact h.held u c' done' todo' hu' g hg
  own := h.own

/-- **Every step keeps the invariant** if it assigns to no field that another thread holds. -/
theorem assigned_step {e : ResultEvent τ} (h : Assigned s) (he : s.Alone e)
    (hstep : s.step e = some s') :
    Assigned s' := by
  cases e with
  | begin t c =>
    rw [step.eq_def] at hstep
    dsimp only at hstep
    split at hstep
    case h_2 => cases hstep
    case h_1 =>
      obtain rfl := Option.some.inj hstep
      refine h.setPc fun c' done todo hpc ↦ ?_
      obtain ⟨rfl, rfl, rfl⟩ := ResultPc.running.inj hpc
      exact ⟨rfl, rfl⟩
  | assign t =>
    rw [step.eq_def] at hstep
    dsimp only at hstep
    split at hstep
    case h_2 => cases hstep
    case h_1 c done f todo ht =>
      obtain ⟨v, hv, rfl⟩ := Option.map_eq_some_iff.1 hstep
      exact h.assign ht hv (he f (by rw [ht]; rfl))
  | read t f =>
    rw [step.eq_def] at hstep
    dsimp only at hstep
    split at hstep
    case h_2 => cases hstep
    case h_1 c done ht =>
      obtain ⟨v, hv, rfl⟩ := Option.map_eq_some_iff.1 hstep
      refine ⟨h.assigns, h.held, fun r hr ↦ ?_⟩
      rcases List.mem_append.1 hr with hr | hr
      · exact h.own r hr
      · rw [List.mem_singleton.1 hr]
        have hall := mem_assigns hv
        rw [h.assigns t c done [] ht, List.append_nil, List.mem_reverse] at hall
        exact h.held t c done [] ht f hall
  | ret t =>
    rw [step.eq_def] at hstep
    dsimp only at hstep
    split at hstep
    case h_2 => cases hstep
    case h_1 =>
      obtain rfl := Option.some.inj hstep
      exact h.setPc fun c' done todo hpc ↦ ResultPc.noConfusion hpc

/-- **A callback sees its own result** in every run in which no callback assigns to a field that
another one holds. -/
theorem own_of_run {fields : Field → Value} {l : List (ResultEvent τ)}
    (hl : Transition.RunMeets step Alone (start fields : Results τ) l)
    (hrun : Transition.run step (start fields) l = some s) : s.Own :=
  (Transition.invariant_run (fun _ _ _ h he hst ↦ assigned_step h he hst) (assigned_start fields) hl
    hrun).own

end Invariant

/-- A send and a receive, one after the other. -/
theorem own_of_run_apart :
    let l : List (ResultEvent Bool) :=
      [.begin true (.send .noError 5), .assign true, .assign true, .read true .bytesTransferred,
        .ret true, .begin false (.receive .eof 7 64), .assign false, .assign false, .assign false,
        .read false .ec, .ret false]
    ∃ s, Transition.run step (start fun _ ↦ .number 0) l = some s ∧ s.reads.length = 2 ∧ s.Own := by
  intro l
  have hrun : Transition.run step (start fun _ ↦ .number 0) l = some _ := rfl
  have hl : Transition.RunMeets step Alone (start fun _ ↦ .number 0) l := by decide
  exact ⟨_, hrun, rfl, own_of_run hl hrun⟩

/-- A send of 5 bytes and a receive of 7 complete together: the callback of the send reads 7. -/
theorem not_own_crossed :
    ∃ s, Transition.run step (start fun _ ↦ .number 0)
        [.begin true (.send .noError 5), .assign true, .assign true,
          .begin false (.receive .noError 7 64), .assign false,
          .read true .bytesTransferred] = some s ∧
      s.reads = [⟨.send .noError 5, .bytesTransferred, .number 7⟩] ∧ ¬s.Own := by
  refine ⟨_, rfl, rfl, fun h ↦ ?_⟩
  exact absurd (h _ (List.mem_singleton_self _)) (by decide)

end Results

end JnetLib.Server
