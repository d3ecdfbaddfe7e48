import JnetLib.Epoll.Objects

/-!
# What the functions of an operation do with it

A call, a completion and the file worker leave an operation somewhere: that is its fate. Here is
what the fates have in common. An operation goes to the slot of its own socket and direction or to
none (`Fate.Stays`: `Request.stays_begin`, `Object.home_complete`, `Object.home_work`), a call never
ends in the callback (`Request.begin_ne_calledBack`), and `postOp` is the fate only of a receive of
length zero. With registrations that succeed every fate is `Registered` (`Request.registered_begin`,
`Object.registered_complete`).
-/

namespace JnetLib.Epoll

variable {ι κ τ : Type*}

/-! ### Slots -/

section Functions

variable {obj obj' : Object ι κ} {files files' : κ → OpenFile} {a : Answers} {n : Fate ι}

/-- A fate that is a slot is the one given, registered or refused. -/
def Fate.Stays (p : Option (ι × Dir)) : Fate ι → Prop
  | .wait q _ _ => p = some q
  | _ => True

theorem Fate.stays_register (p : ι × Dir) (errno : ℤ) : (Fate.register p errno).Stays (some p) :=
  rfl

theorem Fate.stays_connect (i : ι) (ec : ErrorCode) (ret : Bool) (errno : ℤ) :
    (Fate.connect i ec ret errno).Stays (some (i, .output)) := by
  rw [Fate.connect]
  split
  · rfl
  · split <;> rfl

theorem RecvPlace.stays_fate (i : ι) (errno : ℤ) (q : RecvPlace) :
    (q.fate i errno).Stays (some (i, .input)) := by
  cases q with
  | inSlot => exact Fate.stays_register _ errno
  | completed | posted | finished => trivial

theorem SendPlace.stays_fate (i : ι) (errno : ℤ) (q : SendPlace) :
    (q.fate i errno).Stays (some (i, .output)) := by
  cases q with
  | inSlot => exact Fate.stays_register _ errno
  | completed | finished => trivial

theorem AcceptPlace.stays_fate (i : ι) (errno : ℤ) (q : AcceptPlace) :
    (q.fate i errno).Stays (some (i, .input)) := by
  cases q with
  | inSlot => exact Fate.stays_register _ errno
  | completed | finished => trivial

theorem FilePlace.stays_fate (q : FilePlace) : (q.fate : Fate ι).Stays none := by
  cases q <;> trivial

theorem ReadLinePlace.stays_fate (q : ReadLinePlace) : (q.fate : Fate ι).Stays none := by
  cases q <;> trivial

/-- A new operation waits in its own slot, if it waits. -/
theorem Request.stays_begin (r : Request ι κ) (a : Answers) :
    (r.begin a).2.Stays (r.begin a).1.home := by
  cases r with
  | asynAccept i => exact AcceptPlace.stays_fate ..
  | asynConnect i => exact Fate.stays_connect ..
  | asynSend i len => exact SendPlace.stays_fate ..
  | asynRecv i len | asynRecvSome i len => exact RecvPlace.stays_fate ..
  | asynRead | asynWrite | asynReadLine => trivial

theorem RecvOp.place_beginRecv (op : RecvOp) (o : Outcome) :
    ∀ ec k, (op.beginRecv o).place ≠ .finished ec k := by
  intro ec k
  rw [RecvOp.beginRecv]
  split
  · dsimp only
    split <;> simp
  · simp

theorem SendOp.place_beginSend (op : SendOp) (o : Outcome) :
    ∀ ec k, (op.beginSend o).2 ≠ .finished ec k := by
  intro ec k
  rw [SendOp.beginSend]
  split <;> simp

theorem AcceptState.place_start (o : AcceptOutcome) :
    ∀ ec, (AcceptState.start o).place ≠ .finished ec := by
  intro ec
  rw [AcceptState.start]
  split <;> simp

/-- No call calls back at once. -/
theorem Request.begin_ne_calledBack (r : Request ι κ) (a : Answers) :
    (r.begin a).2 ≠ .calledBack := by
  cases r with
  | asynAccept i =>
    have := AcceptState.place_start a.accept
    simp only [Request.begin]
    cases h : (AcceptState.start a.accept).place <;> simp_all [AcceptPlace.fate, Fate.register]
  | asynConnect i =>
    simp only [Request.begin, Fate.connect]
    split
    · simp
    · split <;> simp
  | asynSend i len =>
    have := SendOp.place_beginSend (SendOp.new len) a.begin
    simp only [Request.begin]
    cases h : ((SendOp.new len).beginSend a.begin).2 <;>
      simp_all [SendPlace.fate, Fate.register]
  | asynRecv i len =>
    have := RecvOp.place_beginRecv (RecvOp.new len false) a.begin
    simp only [Request.begin]
    cases h : ((RecvOp.new len false).beginRecv a.begin).place <;>
      simp_all [RecvPlace.fate, Fate.register]
  | asynRecvSome i len =>
    have := RecvOp.place_beginRecv (RecvOp.new len true) a.begin
    simp only [Request.begin]
    cases h : ((RecvOp.new len true).beginRecv a.begin).place <;>
      simp_all [RecvPlace.fate, Fate.register]
  | asynRead | asynWrite | asynReadLine => simp [Request.begin]

theorem Object.home_modify (obj : Object ι κ) (f : Operation → Operation) :
    (obj.modify f).home = obj.home := by
  cases obj <;> rfl

variable [DecidableEq κ]

/-- A completion leaves the operation what it is, and in its own slot, if it waits. -/
theorem Object.home_complete (h : obj.complete files a = some (obj', files', n)) :
    obj'.home = obj.home ∧ n.Stays obj.home := by
  cases obj with
  | accept i op =>
    obtain ⟨rfl, rfl, rfl⟩ := Option.some.inj h
    exact ⟨rfl, trivial⟩
  | connect i op =>
    obtain ⟨rfl, rfl, rfl⟩ := Option.some.inj h
    refine ⟨rfl, ?_⟩
    show (ConnectOp.onComplete op i a).2.Stays _
    rw [ConnectOp.onComplete]
    split
    · exact Fate.stays_connect ..
    · trivial
  | send i op =>
    rw [Object.complete] at h
    split at h
    · obtain ⟨rfl, rfl, rfl⟩ := Option.some.inj h
      exact ⟨rfl, SendPlace.stays_fate ..⟩
    · obtain ⟨rfl, rfl, rfl⟩ := Option.some.inj h
      exact ⟨rfl, trivial⟩
  | recv i op =>
    obtain ⟨rfl, rfl, rfl⟩ := Option.some.inj h
    exact ⟨rfl, RecvPlace.stays_fate ..⟩
  | read k op | write k op =>
    obtain ⟨rfl, rfl, rfl⟩ := Option.some.inj h
    exact ⟨rfl, FilePlace.stays_fate _⟩
  | readLine k op =>
    obtain ⟨s, -, hs⟩ := Option.map_eq_some_iff.1 h
    obtain ⟨rfl, rfl, rfl⟩ := hs
    exact ⟨rfl, ReadLinePlace.stays_fate _⟩

theorem Object.home_work {o : Outcome} (h : obj.work files o = some (obj', files')) :
    obj'.home = obj.home := by
  cases obj with
  | accept | connect | send | recv => cases h
  | read k op | write k op | readLine k op =>
    obtain ⟨rfl, rfl⟩ := Option.some.inj h
    rfl

end Functions

/-! ### Registrations that succeed -/

/-- A receive of length zero. -/
def Request.Empty : Request ι κ → Prop
  | .asynRecv _ len | .asynRecvSome _ len => len = 0
  | _ => False

/-- No registration fails, or a failed one is undone. -/
def Answers.Registers (a : Answers) : Prop := a.register = 0 ∧ a.ret = false

/-- The operation is not behind a `post_op`, and no slot keeps it that could not be registered. -/
def Fate.Registered : Fate ι → Prop
  | .postOp | .wait _ (some _) true => False
  | _ => True

theorem Fate.registered_register {errno : ℤ} (h : errno = 0) (p : ι × Dir) :
    (Fate.register p errno).Registered := by
  rw [Fate.register, if_pos h]
  trivial

theorem Fate.registered_connect (i : ι) (ec : ErrorCode) (errno : ℤ) :
    (Fate.connect i ec false errno).Registered := by
  rw [Fate.connect]
  split
  · trivial
  · split <;> trivial

theorem RecvPlace.registered_fate {errno : ℤ} (h : errno = 0) (i : ι) {q : RecvPlace}
    (hq : q ≠ .posted) : (q.fate i errno).Registered := by
  cases q with
  | inSlot => exact Fate.registered_register h _
  | completed | finished => trivial
  | posted => exact absurd rfl hq

theorem SendPlace.registered_fate {errno : ℤ} (h : errno = 0) (i : ι) (q : SendPlace) :
    (q.fate i errno).Registered := by
  cases q with
  | inSlot => exact Fate.registered_register h _
  | completed | finished => trivial

theorem AcceptPlace.registered_fate {errno : ℤ} (h : errno = 0) (i : ι) (q : AcceptPlace) :
    (q.fate i errno).Registered := by
  cases q with
  | inSlot => exact Fate.registered_register h _
  | completed | finished => trivial

theorem RecvOp.place_beginRecv_ne_posted {len : ℕ} (h : len ≠ 0) (some_ : Bool) (o : Outcome) :
    ((RecvOp.new len some_).beginRecv o).place ≠ .posted := by
  have hroom : 0 < (RecvOp.new len some_).buffer.remain := Nat.pos_of_ne_zero h
  rw [RecvOp.beginRecv, if_pos hroom]
  dsimp only
  split <;> simp

theorem RecvOp.onComplete_ne_posted (op : RecvOp) (o : Outcome) :
    (op.onComplete o).2 ≠ .posted := by
  simp only [RecvOp.onComplete]
  split_ifs <;> simp

theorem Request.registered_begin {r : Request ι κ} {a : Answers} (hr : ¬r.Empty)
    (ha : a.Registers) :
    (r.begin a).2.Registered := by
  obtain ⟨hreg, hret⟩ := ha
  cases r with
  | asynAccept i => exact AcceptPlace.registered_fate hreg i _
  | asynConnect i =>
    simp only [Request.begin, hret]
    exact Fate.registered_connect ..
  | asynSend i len => exact SendPlace.registered_fate hreg i _
  | asynRecv i len =>
    exact RecvPlace.registered_fate hreg i (RecvOp.place_beginRecv_ne_posted hr _ _)
  | asynRecvSome i len =>
    exact RecvPlace.registered_fate hreg i (RecvOp.place_beginRecv_ne_posted hr _ _)
  | asynRead | asynWrite | asynReadLine => trivial

theorem Object.registered_complete [DecidableEq κ] {obj obj' : Object ι κ}
    {files files' : κ → OpenFile}
    {a : Answers} {n : Fate ι} (ha : a.Registers)
    (h : obj.complete files a = some (obj', files', n)) : n.Registered := by
  obtain ⟨hreg, hret⟩ := ha
  cases obj with
  | accept i op =>
    obtain ⟨-, -, rfl⟩ := Option.some.inj h
    trivial
  | connect i op =>
    obtain ⟨-, -, rfl⟩ := Option.some.inj h
    show (ConnectOp.onComplete op i a).2.Registered
    rw [ConnectOp.onComplete, hret]
    split
    · exact Fate.registered_connect ..
    · trivial
  | send i op =>
    rw [Object.complete] at h
    split at h
    · obtain ⟨-, -, rfl⟩ := Option.some.inj h
      exact SendPlace.registered_fate hreg i _
    · obtain ⟨-, -, rfl⟩ := Option.some.inj h
      trivial
  | recv i op =>
    obtain ⟨-, -, rfl⟩ := Option.some.inj h
    exact RecvPlace.registered_fate hreg i (RecvOp.onComplete_ne_posted op a.transfer)
  | read k op | write k op =>
    obtain ⟨-, -, rfl⟩ := Option.some.inj h
    cases (op.onComplete (files k)).place <;> trivial
  | readLine k op =>
    obtain ⟨s, -, hs⟩ := Option.map_eq_some_iff.1 h
    obtain ⟨-, -, rfl⟩ := hs
    cases s.place <;> trivial

end JnetLib.Epoll
