import RhythmChart.Text

/-!
# Texts by their bytes

`Occurs s span t` says what a span of a text means: both its ends are boundaries of characters, and the
bytes between them are those of the text `t`.  A text occurs in a longer one right after what stands
before it (`occurs_append`).  `Trimmed` says what trimming is: blanks on both sides, and between them a
text that has none at its ends.
-/

namespace RhythmChart.Text

/-! ## Bytes -/

def utf8 (s : List Char) : ByteArray := (String.ofList s).toByteArray

/-- The offset is neither inside a character nor beyond the end of the text. -/
def Boundary (s : List Char) (offset : Nat) : Prop :=
  String.Pos.Raw.IsValid (String.ofList s) ⟨offset⟩

/-- The text `t` stands in `s` at a span. -/
structure Occurs (s : List Char) (span : Span) (t : List Char) : Prop where
  le : span.start ≤ span.stop
  start : Boundary s span.start
  stop : Boundary s span.stop
  bytes : (utf8 s).extract span.start span.stop = utf8 t

theorem utf8_append (s t : List Char) : utf8 (s ++ t) = utf8 s ++ utf8 t := by
  rw [utf8, String.ofList_append, String.toByteArray_append]
  rfl

theorem size_utf8 (s : List Char) : (utf8 s).size = byteLength s := by
  induction s with
  | nil => rfl
  | cons c s ih =>
    have hc : (utf8 [c]).size = c.utf8Size := by
      rw [utf8, String.toByteArray_ofList, List.utf8Encode_singleton, List.size_toByteArray,
        String.length_utf8EncodeChar]
    rw [← List.singleton_append, utf8_append, ByteArray.size_append, hc, ih]
    rfl

theorem byteLength_pos {s : List Char} (h : s ≠ []) : 0 < byteLength s := by
  obtain ⟨c, r, rfl⟩ := List.exists_cons_of_ne_nil h
  exact Nat.add_pos_left c.utf8Size_pos _

theorem boundary_append (s t : List Char) : Boundary (s ++ t) (byteLength s) := by
  refine String.Pos.Raw.isValid_iff_exists_append.2 ⟨.ofList s, .ofList t, String.ofList_append, ?_⟩
  rw [← size_utf8]
  rfl

theorem Boundary.le {s : List Char} {offset : Nat} (h : Boundary s offset) :
    offset ≤ byteLength s := by
  rw [← size_utf8]
  exact h.le_rawEndPos

/-- A part of a text occurs right after what stands before it. -/
theorem occurs_append (before t after : List Char) :
    Occurs (before ++ t ++ after) ⟨byteLength before, byteLength before + byteLength t⟩ t where
  le := Nat.le_add_right _ _
  start := by
    rw [List.append_assoc]
    exact boundary_append before (t ++ after)
  stop := by
    rw [← byteLength_append]
    exact boundary_append (before ++ t) after
  bytes := by
    have hskip : (utf8 before ++ (utf8 t ++ utf8 after)).extract (byteLength before)
          (byteLength before + byteLength t) =
        (utf8 t ++ utf8 after).extract 0 (byteLength t) :=
      ByteArray.extract_append_size_add' (i := 0) (size_utf8 before).symm
    rw [List.append_assoc, utf8_append, utf8_append, hskip]
    exact ByteArray.extract_append_eq_left (size_utf8 t).symm

/-! ## Trimming -/

/-- `t` is the text `s` without the blanks on both sides. -/
structure Trimmed (s lead t trail : List Char) : Prop where
  eq : s = lead ++ t ++ trail
  lead_blank : ∀ c ∈ lead, isBlank c = true
  trail_blank : ∀ c ∈ trail, isBlank c = true
  first : ∀ c, t.head? = some c → isBlank c = false
  last : ∀ c, t.getLast? = some c → isBlank c = false

theorem isBlank_of_head?_dropWhile {s : List Char} {c : Char}
    (h : (s.dropWhile isBlank).head? = some c) : isBlank c = false := by
  have hnot := List.head?_dropWhile_not isBlank s
  rwa [h] at hnot

theorem exists_trimmed (s : List Char) :
    ∃ trail, Trimmed s (s.takeWhile isBlank) (trim s) trail := by
  have hstart : s.takeWhile isBlank ++ trimStart s = s := List.takeWhile_append_dropWhile
  have hend : trim s ++ ((trimStart s).reverse.takeWhile isBlank).reverse = trimStart s := by
    rw [trim, trimEnd, ← List.reverse_append, List.takeWhile_append_dropWhile, List.reverse_reverse]
  refine ⟨((trimStart s).reverse.takeWhile isBlank).reverse, ?_, ?_, ?_, fun c hc => ?_, fun c hc => ?_⟩
  · rw [List.append_assoc, hend, hstart]
  · exact List.all_eq_true.1 List.all_takeWhile
  · exact fun c hc => List.all_eq_true.1 List.all_takeWhile c (List.mem_reverse.1 hc)
  · refine isBlank_of_head?_dropWhile (s := s) ?_
    rw [← trimStart, ← hend, List.head?_append, hc]
    rfl
  · rw [trim, trimEnd, List.getLast?_reverse] at hc
    exact isBlank_of_head?_dropWhile hc

namespace Trimmed

variable {s lead t trail : List Char}

theorem trim_eq (h : Trimmed s lead t trail) : trim s = t := by
  have hstart : trimStart s = (t ++ trail).dropWhile isBlank := by
    rw [h.eq, List.append_assoc]
    exact List.dropWhile_append_of_pos h.lead_blank
  rcases List.eq_nil_or_concat t with rfl | ⟨r, c, rfl⟩
  · have hnil : trimStart s = [] := by
      rw [hstart, List.nil_append, ← List.append_nil trail]
      exact List.dropWhile_append_of_pos h.trail_blank
    rw [trim, hnil]
    rfl
  · have hc : isBlank c = false := h.last c (by simp)
    have hkeep : trimStart s = r.concat c ++ trail := by
      rw [hstart]
      cases r with
      | nil => exact List.dropWhile_cons_of_neg (by simp [hc])
      | cons d r => exact List.dropWhile_cons_of_neg (by simp [h.first d rfl])
    have hback : (r.concat c ++ trail).reverse.dropWhile isBlank = c :: r.reverse := by
      rw [List.reverse_append, List.dropWhile_append_of_pos, List.concat_eq_append,
        List.reverse_append]
      · exact List.dropWhile_cons_of_neg (by simp [hc])
      · exact fun d hd => h.trail_blank d (List.mem_reverse.1 hd)
    rw [trim, hkeep, trimEnd, hback, List.reverse_cons, List.reverse_reverse, List.concat_eq_append]

theorem takeWhile_eq (h : Trimmed s lead t trail) (ht : t ≠ []) : s.takeWhile isBlank = lead := by
  obtain ⟨c, r, rfl⟩ := List.exists_cons_of_ne_nil ht
  rw [h.eq, List.append_assoc, List.takeWhile_append_of_pos h.lead_blank, List.cons_append,
    List.takeWhile_cons_of_neg (by simp [h.first c rfl]), List.append_nil]

theorem append_blank (h : Trimmed s lead t trail) {c : Char} (hc : isBlank c = true) :
    Trimmed (s ++ [c]) lead t (trail ++ [c]) where
  eq := by rw [h.eq, List.append_assoc]
  lead_blank := h.lead_blank
  trail_blank d hd := by
    rcases List.mem_append.1 hd with hd | hd
    · exact h.trail_blank d hd
    · rwa [List.mem_singleton.1 hd]
  first := h.first
  last := h.last

end Trimmed

theorem trim_eq_nil_iff (s : List Char) : trim s = [] ↔ ∀ c ∈ s, isBlank c = true := by
  constructor
  · intro htrim c hc
    obtain ⟨trail, h⟩ := exists_trimmed s
    rw [h.eq, htrim, List.append_nil] at hc
    exact (List.mem_append.1 hc).elim (h.lead_blank c) (h.trail_blank c)
  · intro hs
    have h : Trimmed s s [] [] := ⟨by simp, hs, by simp, by simp, by simp⟩
    exact h.trim_eq

/-- A blank at the end of a line does not count. -/
theorem trim_append_blank (s : List Char) {c : Char} (hc : isBlank c = true) :
    trim (s ++ [c]) = trim s := by
  obtain ⟨trail, h⟩ := exists_trimmed s
  exact (h.append_blank hc).trim_eq

/-- Where a line that is not blank begins does not depend on a blank at its end. -/
theorem takeWhile_append_blank {s : List Char} (hs : trim s ≠ []) {c : Char}
    (hc : isBlank c = true) : (s ++ [c]).takeWhile isBlank = s.takeWhile isBlank := by
  obtain ⟨trail, h⟩ := exists_trimmed s
  exact (h.append_blank hc).takeWhile_eq hs

end RhythmChart.Text
