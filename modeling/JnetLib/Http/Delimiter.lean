import JnetLib.Http.Fields

/-!
# What the bytes of a header section say of the body

How the body of a request is delimited is written in the header section: in chunks, if the last
coding of its `Transfer-Encoding` is `chunked`, and else by the number in its `Content-Length`.
`Section` reads the fields off the bytes, line by line and apart from the parser: a field is a name,
a colon and a value, and a line that begins with a space or a tab goes on with the value of the line
before. `delimiter` is what the fields say.

The parser keeps no text. It follows a field with one `header_state`, so it takes a value that is
continued on another line for two, a list of codings for none, and the last of two lengths. Here are
the fields it cannot take for anything else than what they say (`Field.Unmistakable`), the sections
whose fields do not contradict each other (`Unambiguous`), and the reason why for such a section the
`content_length` and the flag `F_CHUNKED` come to the delimiter of its bytes
(`Unambiguous.delimiter_eq`): it rests on `Agrees`, which says so of each field as it goes by.
-/

namespace JnetLib.Http

open Numeral (value)

/-! ### Fields -/

/-- A space or a tab (9). -/
def isBlank (b : Byte) : Bool := b == ' ' || b == 9

/-- The value without the blanks at both ends. -/
def trim (v : List Byte) : List Byte := (v.dropWhile isBlank).rdropWhile isBlank

/-- A header field: the name, whether there is a colon behind it, the bytes of the value but for
line ends, and whether it is continued on another line. -/
structure Field where
  name : List Byte
  colon : Bool
  value : List Byte
  folded : Bool
  deriving DecidableEq, Repr

namespace Field

/-- A line before its first byte. -/
def empty : Field := ⟨[], false, [], false⟩

/-- The field with a byte more of its line. -/
def put (f : Field) (b : Byte) : Field :=
  if b = CR then f
  else if f.colon ∨ f.folded then { f with value := f.value ++ [b] }
  else if b = ':' then { f with colon := true }
  else { f with name := f.name ++ [b] }

/-- The blank that continues the field on another line. -/
def fold (f : Field) (b : Byte) : Field := { f with value := f.value ++ [b], folded := true }

/-- Which of the names the parser looks for it has, without regard to case. -/
def kind (f : Field) : Option FieldName := FieldName.find (f.name.map token)

/-- The field delimits the body. -/
def isFraming (f : Field) : Bool :=
  f.kind == some .contentLength || f.kind == some .transferEncoding

end Field

/-- The number in the value of a `Content-Length`. -/
def number (v : List Byte) : Option ℕ :=
  if trim v ≠ [] ∧ (trim v).all isNum then some (value 10 0 ((trim v).map digit)) else none

/-- The last coding in the value of a `Transfer-Encoding`. -/
def lastCoding (v : List Byte) : List Byte := (trim (v.rtakeWhile (· ≠ (',' : Byte)))).map lower

namespace Field

/-- The number a `Content-Length` gives. -/
def length (f : Field) : Option ℕ :=
  if f.colon ∧ f.kind = some .contentLength then number f.value else none

/-- Whether a `Transfer-Encoding` ends with `chunked`. -/
def chunked (f : Field) : Option Bool :=
  if f.colon ∧ f.kind = some .transferEncoding then some (lastCoding f.value == chunkedValue)
  else none

/-- The parser cannot take the field for anything else: if it delimits the body, it is on one line;
a `Content-Length` holds a number that the parser can store; and a `Transfer-Encoding` that ends
with `chunked` has no other coding, and nothing but spaces behind it. -/
structure Unmistakable (f : Field) : Prop where
  folded : f.isFraming = true → f.folded = false
  length : f.colon = true → f.kind = some .contentLength →
    ∃ n ∈ number f.value, n < ULLONG_MAX
  coding : f.colon = true → f.kind = some .transferEncoding → lastCoding f.value = chunkedValue →
    plainValue (f.value.dropWhile isBlank) = chunkedValue

instance (f : Field) : Decidable f.Unmistakable :=
  decidable_of_iff ((f.isFraming = true → f.folded = false) ∧
    (f.colon = true → f.kind = some .contentLength → ∃ n ∈ number f.value, n < ULLONG_MAX) ∧
    (f.colon = true → f.kind = some .transferEncoding → lastCoding f.value = chunkedValue →
      plainValue (f.value.dropWhile isBlank) = chunkedValue))
    ⟨fun ⟨h, h', h''⟩ ↦ ⟨h, h', h''⟩, fun ⟨h, h', h''⟩ ↦ ⟨h, h', h''⟩⟩

end Field

/-! ### Delimiters -/

/-- How the body of a message is delimited: in chunks, or by a number of bytes. -/
inductive Delimiter
  | chunked
  | length (n : ℕ)
  deriving DecidableEq, Repr

/-- What the fields of a header section say of the body. A coding goes before a length, and where
neither is given there is no body. -/
def delimiter (fs : List Field) : Delimiter :=
  if (fs.filterMap Field.chunked).getLast? = some true then .chunked
  else .length ((fs.filterMap Field.length).head?.getD 0)

/-- The fields that delimit the body are plain, and do not contradict each other. -/
structure Unambiguous (fs : List Field) : Prop where
  unmistakable : ∀ f ∈ fs, f.Unmistakable
  lengths : ∀ m ∈ fs.filterMap Field.length, ∀ n ∈ fs.filterMap Field.length, m = n
  codings : ∀ a ∈ fs.filterMap Field.chunked, ∀ b ∈ fs.filterMap Field.chunked, a = b

instance (fs : List Field) : Decidable (Unambiguous fs) :=
  decidable_of_iff ((∀ f ∈ fs, f.Unmistakable) ∧
    (∀ m ∈ fs.filterMap Field.length, ∀ n ∈ fs.filterMap Field.length, m = n) ∧
    ∀ a ∈ fs.filterMap Field.chunked, ∀ b ∈ fs.filterMap Field.chunked, a = b)
    ⟨fun ⟨h, h', h''⟩ ↦ ⟨h, h', h''⟩, fun ⟨h, h', h''⟩ ↦ ⟨h, h', h''⟩⟩

/-- The delimiter as the parser holds it at the end of a header section. -/
def Parser.delimiter (q : Parser) : Delimiter :=
  if q.flags.chunked then .chunked
  else .length (if q.contentLength = ULLONG_MAX then 0 else q.contentLength)

/-- The parser holds the last length and has seen a `chunked`, if the fields that have gone by are
plain. -/
def Agrees (fs : List Field) (q : Parser) : Prop :=
  (∀ f ∈ fs, f.Unmistakable) →
    q.contentLength = (fs.filterMap Field.length).getLast?.getD ULLONG_MAX ∧
    q.flags.chunked = (fs.filterMap Field.chunked).any id

/-- A property of the last entry is one of all entries, where they are equal. -/
theorem getLast?_eq_head? {α : Type*} {l : List α} (h : ∀ a ∈ l, ∀ b ∈ l, a = b) :
    l.getLast? = l.head? := by
  cases l with
  | nil => rfl
  | cons a l =>
    rw [List.getLast?_eq_some_getLast (List.cons_ne_nil a l), List.head?_cons]
    exact congrArg some (h _ (List.getLast_mem _) a List.mem_cons_self)

theorem any_id_iff {l : List Bool} (h : ∀ a ∈ l, ∀ b ∈ l, a = b) :
    l.any id = true ↔ l.getLast? = some true := by
  rw [List.any_eq_true]
  refine ⟨fun ⟨a, ha, htrue⟩ ↦ ?_, fun hlast ↦ ⟨true, List.mem_of_getLast? hlast, rfl⟩⟩
  have hne : l ≠ [] := List.ne_nil_of_mem ha
  rw [List.getLast?_eq_some_getLast hne, h _ (List.getLast_mem hne) a ha]
  exact congrArg some htrue

/-- **What the parser makes of an unambiguous section** is what its bytes say. -/
theorem Unambiguous.delimiter_eq {fs : List Field} {q : Parser} (h : Unambiguous fs)
    (hagrees : Agrees fs q) : q.delimiter = delimiter fs := by
  obtain ⟨hlength, hchunked⟩ := hagrees h.unmistakable
  have hiff := any_id_iff h.codings
  rw [← hchunked] at hiff
  rw [Parser.delimiter, delimiter, getLast?_eq_head? h.codings]
  rw [getLast?_eq_head? h.codings] at hiff
  by_cases hc : q.flags.chunked = true
  · rw [if_pos hc, if_pos (hiff.1 hc)]
  · rw [if_neg hc, if_neg (mt hiff.2 hc), hlength, getLast?_eq_head? h.lengths]
    cases hhead : (fs.filterMap Field.length).head? with
    | none => rfl
    | some n =>
      obtain ⟨f, hf, hn⟩ := List.mem_filterMap.1 (List.mem_of_head? hhead)
      rw [Field.length] at hn
      obtain ⟨⟨hcolon, hkind⟩, hn⟩ := Option.ite_none_right_eq_some.1 hn
      obtain ⟨m, hm, hlt⟩ := (h.unmistakable f hf).length hcolon hkind
      obtain rfl := Option.some.inj (hn.symm.trans hm)
      rw [Option.getD_some, Option.getD_some, if_neg (Nat.ne_of_lt hlt)]

/-! ### The reader -/

/-- Where the reader of a header section is: in the request line; at the beginning of a line, behind
the fields `done` and `last`; in the line of a field; in the empty line; or behind it. -/
inductive Section
  | request
  | fresh (done : List Field) (last : Option Field)
  | text (done : List Field) (field : Field)
  | ending (done : List Field)
  | over (done : List Field)
  deriving DecidableEq, Repr

namespace Section

/-- What has been read of a section with a byte more. -/
def next : Section → Byte → Section
  | .request, b => if b = LF then .fresh [] none else .request
  | .fresh done last, b =>
    if b = LF then .over (done ++ last.toList)
    else if b = CR then .ending (done ++ last.toList)
    else
      match last with
      | none => .text done (Field.empty.put b)
      | some f =>
        if isBlank b then .text done (f.fold b) else .text (done ++ [f]) (Field.empty.put b)
  | .text done f, b => if b = LF then .fresh done (some f) else .text done (f.put b)
  | .ending done, b => if b = LF then .over done else .ending done
  | .over done, _ => .over done

/-- The fields of a section that has ended. -/
def fields : Section → Option (List Field)
  | .over done => some done
  | _ => none

end Section

end JnetLib.Http
