import JnetLib.Http.Parsing
import JnetLib.Http.Request

/-!
# Header lines and header entries

`on_header_field` opens an entry exactly if a value came before, and the parser has a way to end a
header line without one. Here are the lines of a header section, read from its bytes, and what the
entries become if a line without colon and continuation leaves the last entry open.

`entries` is a fold over the lines: a line whose predecessor has a value adds an entry, and any
other line adds its name to the last one (`Entries.add`). So `onePerLine_iff`, by which there is an
entry for each line exactly if every line but the last has a value, does not speak of the parser at
all. `view_onHeaderField` and `view_onHeaderValue` say that the callbacks of an operation do the
same to its request.
-/

namespace JnetLib.Http

/-! ### The lines of a header section -/

/-- A header line: the bytes before its colon, and whether it has a colon or a continuation line. -/
structure HeaderLine where
  name : List Byte
  valued : Bool
  deriving DecidableEq, Repr

/-- Where the reader of a header section is: before the request line, in it, at the beginning of a
line behind the lines `done` and `last`, in the line `line`, or in the line that ends the
section. -/
inductive Scan
  | lead
  | request
  | fresh (done : List HeaderLine) (last : Option HeaderLine)
  | text (done : List HeaderLine) (line : HeaderLine)
  | ending (done : List HeaderLine)
  deriving DecidableEq, Repr

namespace Scan

/-- What has been read with a byte more. A line that begins with a space or a tab (9) continues the
line before. -/
def next : Scan → Byte → Scan
  | .lead, b => if b = CR ∨ b = LF then .lead else .request
  | .request, b => if b = LF then .fresh [] none else .request
  | .fresh done last, b =>
    if b = CR ∨ b = LF then .ending (done ++ last.toList)
    else
      match last with
      | none => .text done ⟨[b], false⟩
      | some line =>
        if b = ' ' ∨ b = 9 then .text done { line with valued := true }
        else .text (done ++ [line]) ⟨[b], false⟩
  | .text done line, b =>
    if b = LF then .fresh done (some line)
    else if b = CR ∨ line.valued then .text done line
    else if b = ':' then .text done { line with valued := true }
    else .text done { line with name := line.name ++ [b] }
  | .ending done, _ => .ending done

/-- The lines so far. -/
def lines : Scan → List HeaderLine
  | .lead => []
  | .request => []
  | .fresh done last => done ++ last.toList
  | .text done line => done ++ [line]
  | .ending done => done

/-- Reading `l` from the beginning of a message. -/
def read (l : List Byte) : Scan := l.foldl next .lead

theorem read_concat (l : List Byte) (b : Byte) : read (l ++ [b]) = (read l).next b := by
  rw [read, List.foldl_append]
  rfl

section Next

variable {done : List HeaderLine} {last : Option HeaderLine} {line : HeaderLine} {b : Byte}

theorem next_fresh_end (hb : b = CR ∨ b = LF) :
    (fresh done last).next b = ending (done ++ last.toList) :=
  if_pos hb

/-- A line begins. -/
theorem next_fresh_name (hb : ¬(b = CR ∨ b = LF)) (hcont : b = ' ' ∨ b = 9 → last = none) :
    (fresh done last).next b = text (done ++ last.toList) ⟨[b], false⟩ := by
  refine (if_neg hb).trans ?_
  cases last with
  | none => rw [Option.toList_none, List.append_nil]
  | some line => exact if_neg fun h ↦ absurd (hcont h) nofun

/-- A line is continued. -/
theorem next_fresh_continue (hb : b = ' ' ∨ b = 9) :
    (fresh done (some line)).next b = text done { line with valued := true } := by
  have hne : ¬(b = CR ∨ b = LF) := by rcases hb with rfl | rfl <;> decide
  exact (if_neg hne).trans (if_pos hb)

theorem next_text_last (hb : b = LF) : (text done line).next b = fresh done (some line) :=
  if_pos hb

theorem next_text_skip (hb : b ≠ LF) (h : b = CR ∨ line.valued = true) :
    (text done line).next b = text done line :=
  (if_neg hb).trans (if_pos h)

theorem next_text_colon (hb : b = ':') (hl : line.valued = false) :
    (text done line).next b = text done { line with valued := true } := by
  have hlf : b ≠ LF := by
    rw [hb]
    decide
  have hne : ¬(b = CR ∨ line.valued = true) := by
    rw [hb, hl]
    decide
  exact (if_neg hlf).trans ((if_neg hne).trans (if_pos hb))

theorem next_text_name (hlf : b ≠ LF) (hcr : b ≠ CR) (hcolon : b ≠ ':')
    (hl : line.valued = false) :
    (text done line).next b = text done { line with name := line.name ++ [b] } := by
  have hne : ¬(b = CR ∨ line.valued = true) := by
    rw [hl]
    exact not_or.2 ⟨hcr, nofun⟩
  exact (if_neg hlf).trans ((if_neg hne).trans (if_neg hcolon))

end Next

end Scan

/-! ### The entries -/

/-- The names of the entries of a request, and whether the next fragment of a name goes to the last
of them. -/
@[ext]
structure Entries where
  names : List (List Byte)
  isOpen : Bool
  deriving DecidableEq, Repr

/-- What becomes of one line more. A line without a value leaves its entry open. -/
def Entries.add (a : Entries) (l : HeaderLine) : Entries :=
  ⟨if a.isOpen then a.names.modifyLast (· ++ l.name) else a.names ++ [l.name], !l.valued⟩

/-- The entries of a header section. -/
def entries (ls : List HeaderLine) : Entries := ls.foldl Entries.add ⟨[], false⟩

/-- One entry for each line, with that line's name. -/
def OnePerLine (ls : List HeaderLine) (headers : List Header) : Prop :=
  headers.length = ls.length ∧ headers.map Header.name = ls.map HeaderLine.name

instance (ls : List HeaderLine) (headers : List Header) : Decidable (OnePerLine ls headers) :=
  inferInstanceAs (Decidable (_ ∧ _))

section Entries

variable {α β : Type*}

theorem length_modifyLast (f : α → α) (l : List α) : (l.modifyLast f).length = l.length := by
  rcases List.eq_nil_or_concat l with rfl | ⟨l, a, rfl⟩
  · rfl
  · rw [List.concat_eq_append, List.modifyLast_concat, List.length_append, List.length_append]
    rfl

theorem map_modifyLast {f : α → β} {g : α → α} {g' : β → β} (h : ∀ a, f (g a) = g' (f a))
    (l : List α) : (l.modifyLast g).map f = (l.map f).modifyLast g' := by
  rcases List.eq_nil_or_concat l with rfl | ⟨l, a, rfl⟩
  · rfl
  · rw [List.concat_eq_append, List.modifyLast_concat, List.map_append, List.map_append,
      List.map_singleton, List.map_singleton, List.modifyLast_concat, h]

theorem modifyLast_modifyLast (f g : α → α) (l : List α) :
    (l.modifyLast f).modifyLast g = l.modifyLast (g ∘ f) := by
  rcases List.eq_nil_or_concat l with rfl | ⟨l, a, rfl⟩
  · rfl
  · rw [List.concat_eq_append, List.modifyLast_concat, List.modifyLast_concat,
      List.modifyLast_concat]
    rfl

variable {ls : List HeaderLine} {l : HeaderLine}

theorem entries_concat (ls : List HeaderLine) (l : HeaderLine) :
    entries (ls ++ [l]) = (entries ls).add l := by
  rw [entries, List.foldl_append]
  rfl

/-- Whether an entry is open depends on the last line. -/
theorem isOpen_entries (ls : List HeaderLine) (l : HeaderLine) :
    (entries (ls ++ [l])).isOpen = !l.valued := by
  rw [entries_concat]
  rfl

/-- A name in two pieces. -/
theorem add_add (a : Entries) (m n : List Byte) (v : Bool) :
    (a.add ⟨m, false⟩).add ⟨n, v⟩ = a.add ⟨m ++ n, v⟩ := by
  obtain ⟨names, isOpen⟩ := a
  cases isOpen
  · simp [Entries.add, List.modifyLast_concat]
  · simp [Entries.add, modifyLast_modifyLast, Function.comp_def]

/-- A line without a value can grow. -/
theorem entries_grow (ls : List HeaderLine) (hl : l.valued = false) (n : List Byte) :
    (entries (ls ++ [l])).add ⟨n, false⟩ = entries (ls ++ [{ l with name := l.name ++ n }]) := by
  obtain ⟨name, valued⟩ := l
  obtain rfl : valued = false := hl
  rw [entries_concat, entries_concat, add_add]

/-- An open entry is not changed by a piece without bytes. -/
theorem add_nil {a : Entries} (h : a.isOpen = true) : a.add ⟨[], false⟩ = a := by
  obtain ⟨names, isOpen⟩ := a
  obtain rfl : isOpen = true := h
  rcases List.eq_nil_or_concat names with rfl | ⟨names, n, rfl⟩
  · rfl
  · simp [Entries.add, List.modifyLast_concat]

/-- Whether the line has a value matters for the next line only. -/
theorem names_entries (ls : List HeaderLine) (l : HeaderLine) (v : Bool) :
    (entries (ls ++ [l])).names = (entries (ls ++ [{ l with valued := v }])).names := by
  rw [entries_concat, entries_concat]
  rfl

theorem length_names_add (a : Entries) (l : HeaderLine) :
    (a.add l).names.length = a.names.length + if a.isOpen then 0 else 1 := by
  rw [Entries.add]
  split
  · exact length_modifyLast _ _
  · exact List.length_append

theorem length_names_le (ls : List HeaderLine) : (entries ls).names.length ≤ ls.length := by
  induction ls using List.reverseRecOn with
  | nil => exact Nat.le_refl 0
  | append_singleton ls l ih =>
    rw [entries_concat, length_names_add, List.length_append, List.length_singleton]
    split <;> omega

/-- A section with a line has an entry. -/
theorem names_ne_nil (ls : List HeaderLine) (l : HeaderLine) :
    (entries (ls ++ [l])).names ≠ [] := by
  induction ls using List.reverseRecOn generalizing l with
  | nil => exact List.cons_ne_nil _ _
  | append_singleton ls k ih =>
    refine List.ne_nil_of_length_pos ?_
    have hpos := List.length_pos_iff.2 (ih k)
    rw [entries_concat, length_names_add]
    omega

/-- Where every line but the last has a value, the names are those of the lines. -/
theorem names_of_valued (ls : List HeaderLine) (h : ∀ k ∈ ls.dropLast, k.valued = true) :
    (entries ls).names = ls.map HeaderLine.name := by
  induction ls using List.reverseRecOn with
  | nil => rfl
  | append_singleton ls l ih =>
    rw [List.dropLast_concat] at h
    have hnames := ih fun k hk ↦ h k (List.dropLast_subset _ hk)
    have hclosed : (entries ls).isOpen = false := by
      rcases List.eq_nil_or_concat ls with rfl | ⟨ls, k, rfl⟩
      · rfl
      · rw [List.concat_eq_append] at h ⊢
        rw [isOpen_entries, h k (List.mem_append_right _ List.mem_cons_self)]
        rfl
    rw [entries_concat, Entries.add, hclosed, hnames, List.map_append]
    rfl

/-- Where there are as many entries as lines, every line but the last has a value. -/
theorem valued_of_length (ls : List HeaderLine) (h : (entries ls).names.length = ls.length) :
    ∀ k ∈ ls.dropLast, k.valued = true := by
  induction ls using List.reverseRecOn with
  | nil => exact fun k hk ↦ absurd hk List.not_mem_nil
  | append_singleton ls l ih =>
    rw [entries_concat, length_names_add, List.length_append, List.length_singleton] at h
    have hle := length_names_le ls
    rw [List.dropLast_concat]
    split at h
    · omega
    · next hclosed =>
      have hvalued := ih (by omega)
      rcases List.eq_nil_or_concat ls with rfl | ⟨ls, k, rfl⟩
      · exact fun k hk ↦ absurd hk List.not_mem_nil
      · rw [List.concat_eq_append] at hvalued hclosed ⊢
        rw [List.dropLast_concat] at hvalued
        rw [isOpen_entries, Bool.not_eq_true, Bool.not_eq_false'] at hclosed
        intro k' hk'
        rcases List.mem_append.1 hk' with hk' | hk'
        · exact hvalued k' hk'
        · rw [List.mem_singleton.1 hk', hclosed]

/-- **When entries are lines.** -/
theorem onePerLine_iff {headers : List Header}
    (h : headers.map Header.name = (entries ls).names) :
    OnePerLine ls headers ↔ ∀ k ∈ ls.dropLast, k.valued = true := by
  have hlen : headers.length = (entries ls).names.length := by rw [← h, List.length_map]
  refine ⟨fun hone ↦ valued_of_length ls (hlen.symm.trans hone.1), fun hvalued ↦ ?_⟩
  have hnames := names_of_valued ls hvalued
  exact ⟨by rw [hlen, hnames, List.length_map], h.trans hnames⟩

end Entries

/-! ### The assembler -/

namespace RequestOp

variable {buffer : ℕ} {op : RequestOp}

/-- What the operation knows of the names. -/
def view (op : RequestOp) : Entries :=
  ⟨op.request.headers.map Header.name, op.lastFieldOrValue != 1⟩

/-- A fragment of a name is added as a line without a value would be. -/
theorem view_onHeaderField (op : RequestOp) (bytes : List Byte) :
    (op.onHeaderField bytes).view = op.view.add ⟨bytes, false⟩ := by
  have hmap : ∀ l : List Header, (l.modifyLast fun h ↦ { h with name := h.name ++ bytes }).map
      Header.name = (l.map Header.name).modifyLast (· ++ bytes) := map_modifyLast fun _ ↦ rfl
  by_cases hflag : op.lastFieldOrValue = 1
  · simp [view, Entries.add, onHeaderField, hflag, List.modifyLast_concat]
  · simp [view, Entries.add, onHeaderField, hflag, hmap]

/-- A fragment of a value closes the entry. -/
theorem view_onHeaderValue (op : RequestOp) (bytes : List Byte) :
    (op.onHeaderValue bytes).view = ⟨op.view.names, false⟩ := by
  have hmap : ∀ l : List Header, (l.modifyLast fun h ↦ { h with value := h.value ++ bytes }).map
      Header.name = (l.map Header.name).modifyLast id := map_modifyLast fun _ ↦ rfl
  have hid : ∀ l : List (List Byte), l.modifyLast id = l := fun l ↦ by
    rcases List.eq_nil_or_concat l with rfl | ⟨l, a, rfl⟩
    · rfl
    · rw [List.concat_eq_append, List.modifyLast_concat, id]
  simp [view, onHeaderValue, hmap, hid]

/-- The mode of the operation is fixed. -/
theorem handle_continuous (buffer : ℕ) (op : RequestOp) (c : Callback) :
    (handle buffer op c).op.continuous = op.continuous := by
  have hdue : ∀ (op : RequestOp) (result : Result), (op.due result).op.continuous = op.continuous :=
    fun op result ↦ by
      rw [due]
      split <;> rfl
  cases c with
  | messageBegin => rfl
  | data which off bytes =>
    cases which with
    | url => rfl
    | headerField => rfl
    | headerValue => rfl
    | body => exact hdue _ _
  | headersComplete method httpMajor httpMinor upgrade =>
    rw [handle, onHeadersComplete]
    split
    · exact hdue _ _
    · rfl
  | messageComplete => rfl

theorem handleAll_continuous (buffer : ℕ) (op : RequestOp) (l : List Callback) :
    (op.handleAll buffer l).continuous = op.continuous := by
  induction l generalizing op with
  | nil => rfl
  | cons c l ih => rw [handleAll_cons, ih, handle_continuous]

/-- The next fragment of a name has an entry to go to, or opens one. -/
def Grounded (op : RequestOp) : Prop := op.lastFieldOrValue = 1 ∨ op.request.headers ≠ []

/-- An operation whose entries are those of some lines has an entry for a fragment of a name, or
opens one. -/
theorem grounded_of_view {ls : List HeaderLine} (h : op.view = entries ls) : op.Grounded := by
  rcases List.eq_nil_or_concat ls with rfl | ⟨ls, l, rfl⟩
  · refine .inl ?_
    have hclosed : op.view.isOpen = false := by rw [h]; rfl
    simpa [view] using hclosed
  · refine .inr fun hnil ↦ names_ne_nil ls l ?_
    rw [← List.concat_eq_append, ← h, view, hnil]
    rfl

end RequestOp

end JnetLib.Http
