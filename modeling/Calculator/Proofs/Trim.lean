import Calculator.Text.Blank
import Mathlib.Data.List.TakeWhile
/-!
# Proofs.Trim — a text is its trim with blanks around it

Trimming takes blanks off both ends and leaves a text without any there (`exists_trimList`).  Whatever blanks are around
such a text, it is their trim (`trimList_append`).
-/
namespace Calculator
namespace Text

/-- No blank at either end. -/
structure IsTrimmed (cs : List Char) : Prop where
  head : ∀ c ∈ cs.head?, isBlank c = false
  last : ∀ c ∈ cs.getLast?, isBlank c = false

theorem dropWhile_isBlank_append {blanks cs : List Char} (hblanks : ∀ c ∈ blanks, isBlank c = true)
    (hcs : ∀ c ∈ cs.head?, isBlank c = false) : (blanks ++ cs).dropWhile isBlank = cs := by
  rw [List.dropWhile_append_of_pos hblanks]
  cases cs with
  | nil => rfl
  | cons c cs => rw [List.dropWhile_cons_of_neg (by simp [hcs c rfl])]

theorem trimList_of_blanks {cs : List Char} (h : ∀ c ∈ cs, isBlank c = true) : trimList cs = [] := by
  rw [trimList, List.dropWhile_eq_nil_iff.2 h]
  rfl

/-- **What has no blank at its ends is the trim of itself among blanks.** -/
theorem trimList_append {a cs b : List Char} (ha : ∀ c ∈ a, isBlank c = true) (h : IsTrimmed cs)
    (hb : ∀ c ∈ b, isBlank c = true) : trimList (a ++ cs ++ b) = cs := by
  by_cases hnil : cs = []
  · rw [hnil, List.append_nil]
    exact trimList_of_blanks (List.forall_mem_append.2 ⟨ha, hb⟩)
  · have hhead : ∀ c ∈ (cs ++ b).head?, isBlank c = false := by
      obtain ⟨x, xs, rfl⟩ := List.exists_cons_of_ne_nil hnil
      exact h.head
    have hlast : ∀ c ∈ cs.reverse.head?, isBlank c = false := by
      rw [List.head?_reverse]
      exact h.last
    rw [trimList, List.append_assoc, dropWhile_isBlank_append ha hhead, List.reverse_append,
      dropWhile_isBlank_append (fun c hc => hb c (List.mem_reverse.1 hc)) hlast, List.reverse_reverse]

/-- **A text is its trim with blanks around it.** -/
theorem exists_trimList (cs : List Char) : ∃ a b, cs = a ++ trimList cs ++ b ∧ (∀ c ∈ a, isBlank c = true) ∧
    (∀ c ∈ b, isBlank c = true) ∧ IsTrimmed (trimList cs) := by
  have hfront := List.takeWhile_append_dropWhile (p := isBlank) (l := cs)
  have hback := List.takeWhile_append_dropWhile (p := isBlank) (l := (cs.dropWhile isBlank).reverse)
  have hall : ∀ {ds : List Char}, ∀ c ∈ ds.takeWhile isBlank, isBlank c = true := fun c hc => List.mem_takeWhile_imp hc
  have hnot : ∀ {ds : List Char}, ∀ c ∈ (ds.dropWhile isBlank).head?, isBlank c = false := fun {ds} c hc => by
    have hne := List.head?_dropWhile_not isBlank ds
    rw [Option.mem_def.1 hc] at hne
    simpa using hne
  have hsplit := congrArg List.reverse hback
  rw [List.reverse_append, List.reverse_reverse] at hsplit
  refine ⟨cs.takeWhile isBlank, ((cs.dropWhile isBlank).reverse.takeWhile isBlank).reverse, ?_, hall,
    fun c hc => hall c (List.mem_reverse.1 hc), ⟨?_, ?_⟩⟩
  · rw [trimList, List.append_assoc, hsplit, hfront]
  · -- what is in front of the trim is in front of the text that was trimmed at its end
    intro c hc
    have hmem : c ∈ (trimList cs ++ ((cs.dropWhile isBlank).reverse.takeWhile isBlank).reverse).head? := by
      rw [List.head?_append, Option.mem_def.1 hc]
      rfl
    rw [trimList, hsplit] at hmem
    exact hnot c hmem
  · rw [trimList, List.getLast?_reverse]
    exact hnot

theorem trim_ofList (cs : List Char) : trim (String.ofList cs) = String.ofList (trimList cs) := by
  rw [trim, String.toList_ofList]

theorem mem_of_mem_trim {s : String} {c : Char} (h : c ∈ (trim s).toList) : c ∈ s.toList := by
  obtain ⟨a, b, hs, -, -, -⟩ := exists_trimList s.toList
  rw [trim, String.toList_ofList] at h
  rw [hs]
  exact List.mem_append_left b (List.mem_append_right a h)

end Text
end Calculator
