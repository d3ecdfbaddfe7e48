import JnetLib.Epoll.Written

/-!
# A write in the queue of its file

There are two models of `write_op`. `File.Writes` follows the queue of a file with any number of
operations on it, whose writes take all they are offered. `WriteOp.step` follows one operation by
itself, with its error code, its counts and short writes. Here is how the two fit.

`Shows` says that the operations of the two models have the same buffer, consumed to the same place,
and the same count posted. What the queue does to an operation is then what `WriteOp.step` does to
it, with a `::write` that takes all it is asked for (`Shows.write` and `Shows.dispatch`).
`follows_of_run` says so of whole runs: every operation in the queue goes the way it goes by itself,
and the file it would have by itself holds its pieces, one behind the other. It rests on
`Writes.InPieces`: the operation that the file thread has taken has posted no completion.
-/

namespace JnetLib.Epoll.WriteOp

variable {op : File.WriteOp} {t : FileState WriteOp} {file : OpenFile} {n : ℕ}

/-! ### One operation -/

/-- An operation in the queue and the same operation by itself. -/
structure Shows (op : File.WriteOp) (t : FileState WriteOp) : Prop where
  start : t.op.start = op.start
  consumed : t.op.buffer.buf = op.consumed
  len : t.op.buffer.len = op.buffer.length
  noError : t.op.base.ec.isError = false
  place : t.place = if op.posted.isSome then .completed else .queued
  posted : ∀ n ∈ op.posted, t.op.base.bytesTransferred = n

theorem shows_asynWrite (file : OpenFile) (buf : List Byte) :
    Shows ⟨buf, 0, none⟩ (asynWrite file buf) :=
  ⟨rfl, rfl, rfl, rfl, rfl, nofun⟩

theorem Shows.requested (h : Shows op t) : t.op.requested = op.doWrite := by
  rw [WriteOp.requested, h.len, op.doWrite_eq, Nat.min_comm]

/-- The worker's turn. -/
theorem Shows.write (h : Shows op t) (hp : op.posted = none) :
    ∃ u, step t (.worker (.bytes t.op.requested)) = some u ∧
      Shows { op with posted := some op.doWrite } u ∧
        u.file = if op.doWrite = 0 then t.file else t.file.write (op.buffer.take op.doWrite) := by
  have hplace : t.place = .queued := by rw [h.place, hp]; rfl
  have hreq := h.requested
  refine ⟨_, if_pos ⟨hplace, Nat.le_refl _⟩, ?_⟩
  rcases Nat.eq_zero_or_pos op.doWrite with hz | hpos
  · rw [doWrite, if_neg (by omega), if_pos hz, hz]
    exact ⟨⟨h.start, h.consumed, h.len, rfl, rfl, fun n hn ↦ Option.some.inj hn⟩, rfl⟩
  · rw [doWrite, if_pos (by omega), if_neg (by omega)]
    have hle : op.doWrite ≤ 65536 := (op.doWrite_eq ▸ Nat.min_le_left _ _ :)
    refine ⟨⟨h.start, h.consumed, h.len, rfl, rfl, fun n hn ↦ ?_⟩, ?_⟩
    · show toUInt32 t.op.requested = n
      rw [toUInt32_of_lt (by omega), hreq]
      exact Option.some.inj hn
    · show t.file.write ((t.op.start.drop t.op.buffer.buf).take t.op.requested) = _
      rw [h.start, h.consumed, hreq]
      rfl

/-- A dispatch: the operation is queued again, or calls back with the length of its buffer. -/
theorem Shows.dispatch (h : Shows op t) (hp : op.posted = some n) :
    ∃ u, step t .dispatch = some u ∧ u.file = t.file ∧
      if (op.buffer.drop n) ≠ [] then
        Shows { op with consumed := op.consumed + n, posted := none } u
      else ∃ ec, ec.isError = false ∧ u.place = .finished ec (op.consumed + n) := by
  have hplace : t.place = .completed := by rw [h.place, hp]; rfl
  have hbytes := h.posted n hp
  refine ⟨_, if_pos hplace, ?_⟩
  split
  · next hmore =>
    have hlt : n < op.buffer.length := by rwa [ne_eq, List.drop_eq_nil_iff, Nat.not_le] at hmore
    rw [onComplete_of_more h.noError (by rw [hbytes, h.len]; exact hlt), hbytes]
    refine ⟨rfl, h.start, congrArg (· + n) h.consumed, ?_, rfl, rfl, nofun⟩
    show t.op.buffer.len - n = _
    rw [h.len, File.WriteOp.buffer, File.WriteOp.buffer, List.length_drop, List.length_drop,
      Nat.sub_sub]
  · next hdone =>
    have hle : op.buffer.length ≤ n := by rwa [not_not, List.drop_eq_nil_iff] at hdone
    rw [onComplete_of_done h.noError (by rw [hbytes, h.len]; exact hle), hbytes, h.consumed]
    exact ⟨rfl, t.op.base.ec, h.noError, rfl⟩

/-! ### Runs -/

section Queue

variable {ι : Type} {s s' : File.Writes ι} {i : ι}

/-- The `::write`s take all they are asked for. -/
abbrev Full : FileState WriteOp → FileEvent → Prop := FileState.Full fun op _ ↦ op.requested

/-- The operation `i` and the same operation by itself: it is outstanding, or it has called back. -/
inductive Follows [DecidableEq ι] (file : OpenFile) (s : File.Writes ι) (i : ι)
    (t : FileState WriteOp) : Prop
  | running (op : File.WriteOp) (ho : s.ops i = some op) (h : Shows op t)
      (hfile : t.file = (s.pieces i).foldl OpenFile.write file)
  | finished (ec : ErrorCode) (n : ℕ) (ho : s.ops i = none) (hcalled : (s.called i).isSome)
      (hp : t.place = .finished ec n) (hec : ec.isError = false) (hr : s.reported i = some n)
      (hfile : t.file = (s.pieces i).foldl OpenFile.write file)

variable [DecidableEq ι]

/-- What happens to the others is nothing to the operation. -/
theorem Follows.frame (h : Follows file s i t) (ho : s'.ops i = s.ops i)
    (hcalled : s'.called i = s.called i) (hr : s'.reported i = s.reported i)
    (hpieces : s'.pieces i = s.pieces i) : Follows file s' i t := by
  cases h with
  | running op ho' hshows hfile => exact .running op (ho.trans ho') hshows (hpieces ▸ hfile)
  | finished ec n ho' hcalled' hp hec hr' hfile =>
    exact .finished ec n (ho.trans ho') (hcalled ▸ hcalled') hp hec (hr.trans hr') (hpieces ▸ hfile)

/-- Some steps of the operation by itself, with full `::write`s. -/
def Goes (t u : FileState WriteOp) : Prop :=
  ∃ l, Transition.run step t l = some u ∧ Transition.RunMeets step Full t l

theorem goes_refl (t : FileState WriteOp) : Goes t t := ⟨[], rfl, trivial⟩

theorem goes_of_step {u : FileState WriteOp} {e : FileEvent} (he : Full t e)
    (hstep : step t e = some u) : Goes t u :=
  ⟨[e], Transition.run_cons_of_eq hstep [],
    (Transition.runMeets_cons_of_eq_some hstep).2 ⟨he, trivial⟩⟩

theorem Goes.trans {u v : FileState WriteOp} (h : Goes t u) (h' : Goes u v) : Goes t v := by
  obtain ⟨l, hl, hok⟩ := h
  obtain ⟨m, hm, hok'⟩ := h'
  exact ⟨l ++ m, (Transition.run_append_of_eq hl m).trans hm,
    (Transition.runMeets_append hl).2 ⟨hok, hok'⟩⟩

/-- The file thread writes and posts. -/
theorem Follows.write (h : Follows file s i t) (hk : s.InPieces) (hw : s.worker = some i)
    (ho : s.ops i = some op) :
    ∃ u, Goes t u ∧ Follows file { s with
      worker := none
      out := if op.doWrite = 0 then s.out else s.out ++ [(i, op.buffer.take op.doWrite)]
      ops := Function.update s.ops i (some { op with posted := some op.doWrite }) } i u := by
  obtain ⟨op', ho', hp⟩ := hk.waiting i (by rw [hw]; exact List.mem_cons_self)
  obtain rfl := Option.some.inj (ho.symm.trans ho')
  cases h with
  | finished ec n hnone =>
    rw [hnone] at ho
    cases ho
  | running op' ho' hshows hfile =>
    obtain rfl := Option.some.inj (ho.symm.trans ho')
    obtain ⟨u, hu, hshows', hfile'⟩ := hshows.write hp
    refine ⟨u, goes_of_step (e := .worker (.bytes _)) rfl hu,
      .running _ (Function.update_self ..) hshows' ?_⟩
    rw [hfile', hfile]
    split
    · rfl
    · refine Eq.trans ?_ (congrArg (fun l ↦ List.foldl OpenFile.write file l)
        (File.Writes.pieces_append (s := s) (p := op.buffer.take op.doWrite)).symm)
      rw [if_pos rfl, List.foldl_append]
      rfl

/-- A service thread dispatches the completion. -/
theorem Follows.onComplete (h : Follows file s i t) (hcalled : (s.called i).isSome)
    (ho : s.ops i = some op) (hp : op.posted = some n) :
    ∃ u, Goes t u ∧ Follows file (s.onComplete i op n) i u := by
  cases h with
  | finished ec n hnone =>
    rw [hnone] at ho
    cases ho
  | running op' ho' hshows hfile =>
    obtain rfl := Option.some.inj (ho.symm.trans ho')
    obtain ⟨u, hu, hfile', hnext⟩ := hshows.dispatch hp
    have hrest : File.WriteOp.buffer { op with consumed := op.consumed + n, posted := none } =
        op.buffer.drop n := List.drop_drop.symm
    refine ⟨u, goes_of_step (e := .dispatch) trivial hu, ?_⟩
    rw [File.Writes.onComplete]
    dsimp only
    rw [hrest]
    split at hnext
    · next hmore =>
      rw [if_pos hmore]
      exact .running _ (Function.update_self ..) hnext (hfile'.trans hfile)
    · next hdone =>
      rw [if_neg hdone]
      obtain ⟨ec, hec, hplace⟩ := hnext
      exact .finished ec _ (Function.update_self ..) hcalled hplace hec (Function.update_self ..)
        (hfile'.trans hfile)

/-- Every step in the queue is one of the operation by itself, or none of its own. -/
theorem Follows.step {e : File.WriteEvent ι} (h : Follows file s i t) (hk : s.InPieces)
    (hcalled : (s.called i).isSome) (hstep : s.step e = some s') :
    ∃ u, Goes t u ∧ Follows file s' i u := by
  cases e with
  | call j buf =>
    rw [File.Writes.step.eq_def] at hstep
    dsimp only at hstep
    split at hstep
    case h_2 => cases hstep
    case h_1 hj =>
      obtain rfl := Option.some.inj hstep
      have hne : i ≠ j := by
        rintro rfl
        rw [hj] at hcalled
        cases hcalled
      exact ⟨t, goes_refl t, h.frame (Function.update_of_ne hne ..) (Function.update_of_ne hne ..)
        rfl rfl⟩
  | take =>
    rw [File.Writes.step.eq_def] at hstep
    dsimp only at hstep
    split at hstep
    case h_2 => cases hstep
    case h_1 =>
      obtain rfl := Option.some.inj hstep
      exact ⟨t, goes_refl t, h.frame rfl rfl rfl rfl⟩
  | write =>
    rw [File.Writes.step.eq_def] at hstep
    dsimp only at hstep
    split at hstep
    case h_1 => cases hstep
    case h_2 j hw =>
      obtain ⟨op, ho, rfl⟩ := Option.map_eq_some_iff.1 hstep
      rcases eq_or_ne i j with rfl | hne
      · exact h.write hk hw ho
      · refine ⟨t, goes_refl t, h.frame (Function.update_of_ne hne ..) rfl rfl ?_⟩
        show File.Writes.pieces { s with out := _ } i = s.pieces i
        split
        · rfl
        · rw [File.Writes.pieces_append, if_neg hne]
  | dispatch j =>
    rw [File.Writes.step.eq_def] at hstep
    dsimp only at hstep
    split at hstep
    case h_1 => cases hstep
    case h_2 op ho =>
      obtain ⟨n, hn, rfl⟩ := Option.map_eq_some_iff.1 hstep
      rcases eq_or_ne i j with rfl | hne
      · exact h.onComplete hcalled ho hn
      · refine ⟨t, goes_refl t, ?_⟩
        rw [File.Writes.onComplete]
        dsimp only
        split
        · exact h.frame (Function.update_of_ne hne ..) rfl rfl rfl
        · exact h.frame (Function.update_of_ne hne ..) rfl (Function.update_of_ne hne ..) rfl

/-- A step either leaves what the operation was called with, or calls it. -/
theorem called_cases {e : File.WriteEvent ι} (hstep : s.step e = some s') :
    s'.called i = s.called i ∨ s.called i = none ∧ ∃ buf, s'.called i = some buf ∧
      s'.ops i = some ⟨buf, 0, none⟩ ∧ s'.pieces i = s.pieces i := by
  cases e with
  | call j buf =>
    rw [File.Writes.step.eq_def] at hstep
    dsimp only at hstep
    split at hstep
    case h_2 => cases hstep
    case h_1 hj =>
      obtain rfl := Option.some.inj hstep
      rcases eq_or_ne i j with rfl | hne
      · exact .inr ⟨hj, buf, Function.update_self .., Function.update_self .., rfl⟩
      · exact .inl (Function.update_of_ne hne ..)
  | take =>
    rw [File.Writes.step.eq_def] at hstep
    dsimp only at hstep
    split at hstep
    case h_2 => cases hstep
    case h_1 => exact .inl (Option.some.inj hstep ▸ rfl)
  | write =>
    rw [File.Writes.step.eq_def] at hstep
    dsimp only at hstep
    split at hstep
    case h_1 => cases hstep
    case h_2 =>
      obtain ⟨op, -, rfl⟩ := Option.map_eq_some_iff.1 hstep
      exact .inl rfl
  | dispatch j =>
    rw [File.Writes.step.eq_def] at hstep
    dsimp only at hstep
    split at hstep
    case h_1 => cases hstep
    case h_2 =>
      obtain ⟨n, -, rfl⟩ := Option.map_eq_some_iff.1 hstep
      rw [File.Writes.onComplete]
      dsimp only
      split <;> exact .inl rfl

/-- **Every write in the queue goes the way it goes by itself**, in every run of any number of
writes on one file: there is a run of the operation alone, with full `::write`s, that shows the same
buffer and the same counts, and calls back with the same count. -/
theorem follows_of_run {l : List (File.WriteEvent ι)} {buf : List Byte} (file : OpenFile)
    (hrun : Transition.run File.Writes.step File.Writes.start l = some s)
    (hi : s.called i = some buf) : ∃ t, Goes (asynWrite file buf) t ∧ Follows file s i t := by
  refine (Transition.invariant_run' (I := fun s : File.Writes ι ↦ s.InPieces ∧ ∀ i buf,
    s.called i = some buf → ∃ t, Goes (asynWrite file buf) t ∧ Follows file s i t)
    (fun s e s' h hstep ↦ ⟨File.Writes.inPieces_step h.1 hstep, fun i buf hi ↦ ?_⟩)
    ⟨File.Writes.inPieces_start, fun i buf hi ↦ by cases hi⟩ hrun).2 i buf hi
  cases hold : s.called i with
  | some buf' =>
    obtain ⟨t, hgoes, hfollows⟩ := h.2 i buf' hold
    obtain ⟨u, hgoes', hfollows'⟩ := hfollows.step h.1 (by rw [hold]; rfl) hstep
    have hsame : s'.called i = some buf' :=
      ((called_cases hstep).resolve_right fun hnew ↦ by
        rw [hold] at hnew
        cases hnew.1).trans hold
    obtain rfl := Option.some.inj (hsame.symm.trans hi)
    exact ⟨u, hgoes.trans hgoes', hfollows'⟩
  | none =>
    rcases called_cases (i := i) hstep with hsame | ⟨-, buf', hcalled, ho, hpieces⟩
    · rw [hsame, hold] at hi
      cases hi
    · obtain rfl := Option.some.inj (hcalled.symm.trans hi)
      refine ⟨_, goes_refl _, .running _ ho (shows_asynWrite file buf') ?_⟩
      rw [hpieces, h.1.unknown i hold]
      rfl

end Queue

end JnetLib.Epoll.WriteOp
