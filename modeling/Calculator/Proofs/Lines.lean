import Calculator.Text.Lines
/-!
# Proofs.Lines — cutting an input into lines

Lines are cut before anything is decoded.  What follows a newline has its own lines (`lines_append`), and what has no
newline in it is one line.  Cutting never cuts a character, since only the newline is encoded with a newline byte.  So
an input is text exactly if all its lines are (`isSome_decode?_iff`).
-/
namespace Calculator
namespace Text

/-! ## Lines -/

/-- What has no newline in it belongs to the line that has begun. -/
theorem linesFrom_append (rest : List UInt8) : ∀ {line : List UInt8} (begun : List UInt8), newline ∉ line →
    linesFrom begun (line ++ rest) = linesFrom (line.reverse ++ begun) rest
  | [], _, _ => rfl
  | x :: line, begun, h => by
    obtain ⟨hx, h⟩ := not_or.1 (mt List.mem_cons.2 h)
    rw [List.cons_append, linesFrom, if_neg (Ne.symm hx), linesFrom_append rest _ h, List.reverse_cons,
      List.append_assoc]
    rfl

section
variable {line : List UInt8} (h : newline ∉ line)
include h

theorem lines_append_newline (rest : List UInt8) : lines (line ++ newline :: rest) = line :: lines rest := by
  rw [lines, linesFrom_append _ _ h, linesFrom, if_pos rfl, List.append_nil, List.reverse_reverse, lines]

theorem lines_of_ne_nil (hne : line ≠ []) : lines line = [line] := by
  have hlines := linesFrom_append [] [] h
  rw [List.append_nil, List.append_nil] at hlines
  rw [lines, hlines, linesFrom, List.isEmpty_reverse, List.reverse_reverse, if_neg (by simpa using hne)]

end

/-- A list is a line that lacks its end, or a line, its end and another list. -/
@[elab_as_elim]
theorem induction_lines {α : Type} {x : α} {P : List α → Prop} (last : ∀ line, x ∉ line → P line)
    (cons : ∀ line rest, x ∉ line → P rest → P (line ++ x :: rest)) (l : List α) : P l := by
  induction hn : l.length using Nat.strongRecOn generalizing l with
  | ind n ih =>
    by_cases h : x ∈ l
    · obtain ⟨line, rest, rfl, hline⟩ := List.eq_append_cons_of_mem h
      have hlt : rest.length < n := by
        rw [← hn, List.length_append, List.length_cons]
        omega
      exact cons line rest hline (ih _ hlt rest rfl)
    · exact last l h

/-- **What follows whole lines has its own.** -/
theorem lines_append {a : List UInt8} (h : a = [] ∨ a.getLast? = some newline) (b : List UInt8) :
    lines (a ++ b) = lines a ++ lines b := by
  induction a using induction_lines (x := newline) with
  | last line hline =>
    rcases h with rfl | h
    · rfl
    · exact absurd (List.mem_of_getLast? h) hline
  | cons line rest hline ih =>
    have hrest : rest = [] ∨ rest.getLast? = some newline := by
      cases rest with
      | nil => exact .inl rfl
      | cons x rest => simpa using h
    rw [List.append_assoc, List.cons_append, lines_append_newline hline, lines_append_newline hline, ih hrest,
      List.cons_append]

theorem newline_not_mem_of_mem_lines {bytes line : List UInt8} (h : line ∈ lines bytes) : newline ∉ line := by
  induction bytes using induction_lines (x := newline) with
  | last l hl =>
    by_cases hnil : l = []
    · rw [hnil] at h
      cases h
    · rw [lines_of_ne_nil hl hnil] at h
      rwa [List.mem_singleton.1 h]
  | cons l rest hl ih =>
    rw [lines_append_newline hl] at h
    rcases List.mem_cons.1 h with rfl | h
    · exact hl
    · exact ih h

/-- What is put together from pieces that end in newlines has the lines of the pieces. -/
theorem lines_flatMap {α : Type} {f : α → List UInt8} : ∀ {l : List α}, (∀ a ∈ l, (f a).getLast? = some newline) →
    lines (l.flatMap f) = l.flatMap (fun a => lines (f a))
  | [], _ => rfl
  | a :: l, h => by
    rw [List.forall_mem_cons] at h
    rw [List.flatMap_cons, List.flatMap_cons, lines_append (.inr h.1), lines_flatMap h.2]

/-! ## Texts -/

/-- What decodes is what some text is encoded as. -/
theorem decode?_eq_some_iff {bytes : List UInt8} {s : String} : decode? bytes = some s ↔ encode s = bytes := by
  unfold decode? encode String.fromUTF8?
  constructor
  · intro h
    split at h
    · cases h
      rfl
    · cases h
  · rintro rfl
    exact dif_pos s.isValidUTF8

theorem decode?_encode (s : String) : decode? (encode s) = some s := decode?_eq_some_iff.2 rfl

theorem encode_eq_flatMap (s : String) : encode s = s.toList.flatMap String.utf8EncodeChar := by
  conv => lhs; rw [← String.ofList_toList (s := s)]
  rw [encode, String.toUTF8_eq_toByteArray, String.toByteArray_ofList, List.utf8Encode, List.data_toByteArray,
    List.toList_toArray]

/-- Every byte of a longer encoding is above those of one byte. -/
theorem toNat_of_mem {c : Char} {b : UInt8} (hb : b.toNat < 128) (h : b ∈ String.utf8EncodeChar c) :
    c.toNat = b.toNat := by
  have hbyte : ∀ n : Nat, b = UInt8.ofNat n ↔ n % 256 = b.toNat := by
    intro n
    rw [← UInt8.toNat_inj, UInt8.toNat_ofNat']
    exact eq_comm
  show c.val.toNat = b.toNat
  unfold String.utf8EncodeChar at h
  simp only at h
  split at h
  · simp only [List.mem_singleton, hbyte] at h
    omega
  · split at h
    · simp only [List.mem_cons, List.not_mem_nil, hbyte, or_false] at h
      omega
    · split at h <;>
      · simp only [List.mem_cons, List.not_mem_nil, hbyte, or_false] at h
        omega

/-- **A byte below 128 is in an encoded text exactly if its character is in the text.** -/
theorem mem_encode_iff {c : Char} {b : UInt8} (hb : b.toNat < 128) (hc : String.utf8EncodeChar c = [b]) {s : String} :
    b ∈ encode s ↔ c ∈ s.toList := by
  have hcb : c.toNat = b.toNat := toNat_of_mem hb (by rw [hc]; exact List.mem_singleton_self b)
  rw [encode_eq_flatMap, List.mem_flatMap]
  constructor
  · rintro ⟨d, hd, hmem⟩
    rwa [Char.toNat_inj.1 (hcb.trans (toNat_of_mem hb hmem).symm)]
  · intro h
    exact ⟨c, h, by rw [hc]; exact List.mem_singleton_self b⟩

/-- So it is with the first byte and the first character. -/
theorem singleton_prefix_encode_iff {c : Char} {b : UInt8} (hb : b.toNat < 128) (hc : String.utf8EncodeChar c = [b])
    {s : String} : [b] <+: encode s ↔ s.toList.head? = some c := by
  have hcb : c.toNat = b.toNat := toNat_of_mem hb (by rw [hc]; exact List.mem_singleton_self b)
  rw [encode_eq_flatMap]
  cases s.toList with
  | nil => simp
  | cons d ds =>
    rw [List.flatMap_cons, List.head?_cons, Option.some_inj]
    constructor
    · intro h
      obtain ⟨x, xs, hd⟩ := List.exists_cons_of_ne_nil (l := String.utf8EncodeChar d) (by simp)
      have hx : b = x := by
        rw [hd] at h
        exact (List.cons_prefix_cons.1 h).1
      have hdb : d.toNat = b.toNat := toNat_of_mem hb (by rw [hd, hx]; exact List.mem_cons_self)
      exact Char.toNat_inj.1 (hdb.trans hcb.symm)
    · rintro rfl
      rw [hc]
      exact List.prefix_append _ _

theorem newline_mem_encode_iff {s : String} : newline ∈ encode s ↔ '\n' ∈ s.toList := mem_encode_iff (by decide) rfl

theorem newline_not_mem_encode {cs : List Char} (h : '\n' ∉ cs) : newline ∉ encode (String.ofList cs) := by
  rw [newline_mem_encode_iff, String.toList_ofList]
  exact h

theorem encode_append (s t : String) : encode (s ++ t) = encode s ++ encode t := by
  rw [encode_eq_flatMap, encode_eq_flatMap, encode_eq_flatMap, String.toList_append, List.flatMap_append]

theorem lines_encode_append {line : List Char} (h : '\n' ∉ line) (rest : List Char) :
    lines (encode (String.ofList (line ++ '\n' :: rest)))
      = encode (String.ofList line) :: lines (encode (String.ofList rest)) := by
  have hsplit : String.ofList (line ++ '\n' :: rest) = String.ofList line ++ ("\n" ++ String.ofList rest) := by
    rw [← String.toList_inj]
    simp
  have hchar : encode "\n" = [newline] := rfl
  rw [hsplit, encode_append, encode_append, hchar, List.singleton_append,
    lines_append_newline (newline_not_mem_encode h)]

theorem lines_encode_line {line : String} (h : '\n' ∉ line.toList) : lines (encode (line ++ "\n")) = [encode line] := by
  have hchar : encode "\n" = [newline] := rfl
  rw [encode_append, hchar, lines_append_newline (mt newline_mem_encode_iff.1 h)]
  rfl

/-- A text of lines has these lines. -/
theorem lines_encode : ∀ {ls : List (List Char)}, (∀ l ∈ ls, '\n' ∉ l) →
    lines (encode (String.ofList (ls.flatMap (· ++ ['\n'])))) = ls.map (fun l => encode (String.ofList l))
  | [], _ => rfl
  | l :: ls, h => by
    rw [List.forall_mem_cons] at h
    rw [List.flatMap_cons, List.append_assoc, List.singleton_append, lines_encode_append h.1, lines_encode h.2,
      List.map_cons]

/-- The lines of an encoded text are encoded texts. -/
theorem exists_encode_of_mem_lines {cs : List Char} {line : List UInt8}
    (h : line ∈ lines (encode (String.ofList cs))) : ∃ s, encode s = line := by
  induction cs using induction_lines (x := '\n') with
  | last l hl =>
    by_cases hnil : encode (String.ofList l) = []
    · rw [hnil] at h
      cases h
    · rw [lines_of_ne_nil (newline_not_mem_encode hl) hnil] at h
      exact ⟨_, (List.mem_singleton.1 h).symm⟩
  | cons l rest hl ih =>
    rw [lines_encode_append hl] at h
    rcases List.mem_cons.1 h with rfl | h
    · exact ⟨_, rfl⟩
    · exact ih h

theorem isSome_decode?_iff_exists {bytes : List UInt8} :
    (decode? bytes).isSome = true ↔ ∃ s, encode s = bytes := by
  simp only [Option.isSome_iff_exists, decode?_eq_some_iff]

/-- **An input is text exactly if each of its lines is.** -/
theorem isSome_decode?_iff (bytes : List UInt8) :
    (decode? bytes).isSome = true ↔ ∀ line ∈ lines bytes, (decode? line).isSome = true := by
  simp only [isSome_decode?_iff_exists]
  constructor
  · rintro ⟨s, rfl⟩ line hline
    rw [← String.ofList_toList (s := s)] at hline
    exact exists_encode_of_mem_lines hline
  · intro h
    induction bytes using induction_lines (x := newline) with
    | last line hline =>
      by_cases hnil : line = []
      · exact ⟨"", hnil.symm⟩
      · rw [lines_of_ne_nil hline hnil, List.forall_mem_singleton] at h
        exact h
    | cons line rest hline ih =>
      rw [lines_append_newline hline, List.forall_mem_cons] at h
      obtain ⟨⟨s, rfl⟩, h⟩ := h
      obtain ⟨t, rfl⟩ := ih h
      exact ⟨s ++ ("\n" ++ t), by rw [encode_append, encode_append]; rfl⟩

end Text
end Calculator
