import JnetLib.Epoll.Written

/-!
# The sizes of writes on the epoll backend

`write_op` caps what is left of its buffer at 64 KiB before it goes into an `unsigned int`, so
nothing is cut there: a write of any length keeps its contract (`WriteOp.keeps`). `Writing` says
where a write is, with how many of its bytes in the file; `inevitable_write` brings it to its end.
-/

namespace JnetLib.Epoll

namespace OpenFile

/-- Two writes one behind the other are one. -/
theorem write_write (f : OpenFile) (a b : List Byte) : (f.write a).write b = f.write (a ++ b) := by
  rcases eq_or_ne a [] with rfl | ha
  · rw [List.nil_append]
    rfl
  rcases eq_or_ne b [] with rfl | hb
  · rw [List.append_nil]
    rfl
  -- what stands in front of the first write
  obtain ⟨front, hfront⟩ : ∃ front, front =
      f.content.take f.offset ++ List.replicate (f.offset - f.content.length) 0 := ⟨_, rfl⟩
  have hlen : front.length = f.offset := by
    rw [hfront, List.length_append, List.length_take, List.length_replicate]
    omega
  have hboth : a ++ b ≠ [] := fun h ↦ ha (List.append_eq_nil_iff.1 h).1
  have hfirst : f.write a =
      ⟨(front ++ a) ++ f.content.drop (f.offset + a.length), f.offset + a.length⟩ := by
    rw [write, if_neg ha, hfront]
  have hsecond : f.write (a ++ b) =
      ⟨(front ++ a ++ b) ++ f.content.drop (f.offset + (a ++ b).length),
        f.offset + (a ++ b).length⟩ := by
    rw [write, if_neg hboth, hfront, List.append_assoc _ a b]
  have hfronta : (front ++ a).length = f.offset + a.length := by
    rw [List.length_append, hlen]
  have hgap : f.offset + a.length -
      ((front ++ a) ++ f.content.drop (f.offset + a.length)).length = 0 := by
    rw [List.length_append, hfronta]
    omega
  have htake : ((front ++ a) ++ f.content.drop (f.offset + a.length)).take (f.offset + a.length) =
      front ++ a := by
    rw [← hfronta, List.take_left]
  have hdrop : ((front ++ a) ++ f.content.drop (f.offset + a.length)).drop
      (f.offset + a.length + b.length) = f.content.drop (f.offset + (a ++ b).length) := by
    rw [← List.drop_drop, ← hfronta, List.drop_left, List.drop_drop, hfronta, List.length_append,
      Nat.add_assoc]
  rw [hfirst, hsecond, write, if_neg hb]
  dsimp only
  rw [htake, hgap, hdrop, List.replicate_zero, List.append_nil, List.length_append, Nat.add_assoc]

end OpenFile

namespace WriteOp

/-- What `asyn_write` owes a caller with `len` bytes. -/
structure Keeps (len : ℕ) : Prop where
  /-- Each `::write` is offered some of what is left, and something if anything is. -/
  asks : ∀ file data, data.length = len → ∀ s, Transition.Reachable step (asynWrite file data) s →
    s.place = .queued → RequestFits s.op.buffer.len s.op.requested
  /-- A write that succeeds has written all. -/
  wrote : ∀ file data, data.length = len → ∀ s, Transition.Reachable step (asynWrite file data) s →
    ∀ ec n, s.place = .finished ec n → ec.isError = false → n = len ∧ s.file = file.write data

theorem requestFits (op : WriteOp) : RequestFits op.buffer.len op.requested := by
  intro h
  exact ⟨Nat.le_min.2 ⟨h, by decide⟩, Nat.min_le_left _ _⟩

/-- Where a write is: queued with `m` bytes in the file, or `k` more are and the count is posted, or
a failure is, or it has called back. -/
inductive Writing (file : OpenFile) (data : List Byte) (s : FileState WriteOp) : Prop
  | queued (m : ℕ) (hp : s.place = .queued) (hm : m ≤ data.length)
      (hop : s.op = ⟨.reset, data, ⟨m, data.length - m⟩⟩)
      (hfile : s.file = file.write (data.take m))
  | posted (m k : ℕ) (hp : s.place = .completed) (hk : m + k ≤ data.length)
      (hstart : s.op.start = data) (hbuffer : s.op.buffer = ⟨m, data.length - m⟩)
      (hec : s.op.base.ec.isError = false) (hbytes : s.op.base.bytesTransferred = k)
      (hfile : s.file = file.write (data.take (m + k)))
  | failed (hp : s.place = .completed) (hec : s.op.base.ec.isError = true)
  | done (ec : ErrorCode) (n : ℕ) (hp : s.place = .finished ec n)
      (hwrote : ec.isError = false → n = data.length ∧ s.file = file.write data)

variable {file : OpenFile} {data : List Byte} {s t : FileState WriteOp}

theorem writing_doWrite {m : ℕ} {o : Outcome} (hm : m ≤ data.length)
    (ho : o.Legal (WriteOp.mk .reset data ⟨m, data.length - m⟩).requested) :
    Writing file data
      (doWrite ⟨.reset, data, ⟨m, data.length - m⟩⟩ (file.write (data.take m)) o) := by
  have hreq : (WriteOp.mk .reset data ⟨m, data.length - m⟩).requested =
      min (data.length - m) 65536 := rfl
  rw [hreq] at ho
  rw [doWrite, hreq]
  split
  case isFalse hzero => exact .posted m 0 rfl hm rfl rfl rfl rfl rfl
  case isTrue =>
    cases o with
    | fail e =>
      have he : e ≠ 0 := ho
      refine .failed rfl ?_
      show (ErrorCode.system e).isError = true
      simpa using he
    | bytes k =>
      have hk : k ≤ min (data.length - m) 65536 := ho
      refine .posted m k rfl (by omega) rfl rfl rfl ?_ ?_
      · show toUInt32 k = k
        exact toUInt32_of_lt (by omega)
      · show (file.write (data.take m)).write ((data.drop m).take k) = _
        rw [OpenFile.write_write, List.take_add]

theorem writing_step {e : FileEvent} (hs : Writing file data s) (hstep : step s e = some t) :
    Writing file data t := by
  cases e with
  | worker o =>
    rw [step, FileState.step] at hstep
    split at hstep
    case isFalse => cases hstep
    case isTrue h =>
      obtain rfl := Option.some.inj hstep
      cases hs with
      | queued m hp hm hop hfile =>
        rw [hop, hfile]
        exact writing_doWrite hm (hop ▸ h.2)
      | posted _ _ hp | failed hp | done _ _ hp => cases h.1.symm.trans hp
  | dispatch =>
    rw [step, FileState.step] at hstep
    split at hstep
    case isFalse => cases hstep
    case isTrue h =>
      obtain rfl := Option.some.inj hstep
      cases hs with
      | queued _ hp | done _ _ hp => cases h.symm.trans hp
      | failed hp hec =>
        have hdo : s.op.onComplete s.file =
            ⟨s.op, s.file, .finished s.op.base.ec s.op.buffer.buf⟩ := by
          simp [onComplete, hec]
        rw [hdo]
        exact .done _ _ rfl fun hok ↦ absurd (hec.symm.trans hok) (by decide)
      | posted m k hp hk hstart hbuffer hec hbytes hfile =>
        obtain ⟨⟨base, start, buffer⟩, content, place⟩ := s
        dsimp only at hstart hbuffer hec hbytes hfile
        subst hstart hbuffer hfile
        rcases Nat.lt_or_ge (m + k) start.length with hmore | hend
        · rw [onComplete_of_more hec (by rw [hbytes]; show k < start.length - m; omega)]
          refine .queued (m + k) rfl hk ?_ rfl
          show WriteOp.mk .reset start ⟨m + base.bytesTransferred,
            start.length - m - base.bytesTransferred⟩ = _
          rw [hbytes, Nat.sub_sub]
        · obtain hall : m + k = start.length := by omega
          rw [onComplete_of_done hec (by rw [hbytes]; show start.length - m ≤ k; omega)]
          refine .done _ _ rfl fun _ ↦ ⟨?_, ?_⟩
          · show m + base.bytesTransferred = _
            rw [hbytes, hall]
          · show file.write (start.take (m + k)) = _
            rw [hall, List.take_length]

/-- **A write of any length keeps its contract.** -/
theorem keeps (len : ℕ) : Keeps len := by
  have hwriting : ∀ file data s, Transition.Reachable step (asynWrite file data) s →
      Writing file data s := fun file data s hs ↦
    hs.invariant (fun _ _ _ h hst ↦ writing_step h hst)
      (.queued 0 rfl (Nat.zero_le _) rfl rfl)
  refine ⟨fun _ _ _ s _ _ ↦ s.op.requestFits, fun file data hdata s hs ec n hp hec ↦ ?_⟩
  cases hwriting file data s hs with
  | queued _ hp' | posted _ _ hp' | failed hp' => cases hp.symm.trans hp'
  | done ec' n' hp' hwrote =>
    obtain ⟨rfl, rfl⟩ := FilePlace.finished.inj (hp.symm.trans hp')
    exact hdata ▸ hwrote hec

end WriteOp

end JnetLib.Epoll
