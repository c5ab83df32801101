import RhythmChart.Proofs.Source.Bytes

/-!
# Parts of a text

Each function that takes a text apart is told by what puts the text together again: what stands before and
after the first character of a kind (`cut?_eq_some_iff`), the first word between blanks (`FirstWord`), the
text between two quotes (`Unquoted`).  A prefix of some bytes is one of some characters if its characters
have one byte each (`splitAtByte?_eq_some_iff`).
-/

namespace RhythmChart.Text

/-! ## Before and after a character -/

section Cut

variable {p : Char → Bool} {s before after : List Char}

theorem cut?_append {c : Char} (hbefore : ∀ d ∈ before, p d = false) (hc : p c = true) :
    cut? p (before ++ c :: after) = some (before, after) := by
  induction before with
  | nil => rw [List.nil_append, cut?, if_pos hc]
  | cons d before ih =>
    have hd : ¬ p d = true := by simp [hbefore d List.mem_cons_self]
    rw [List.cons_append, cut?, if_neg hd, ih fun d hd => hbefore d (List.mem_cons_of_mem _ hd)]
    rfl

theorem cut?_eq_none_iff : cut? p s = none ↔ ∀ d ∈ s, p d = false := by
  induction s with
  | nil => simp [cut?]
  | cons c s ih =>
    unfold cut?
    cases hc : p c <;> simp [hc, ih]

theorem cut?_eq_some_iff : cut? p s = some (before, after) ↔
    ∃ c, s = before ++ c :: after ∧ (∀ d ∈ before, p d = false) ∧ p c = true := by
  constructor
  · intro h
    induction s generalizing before with
    | nil => cases h
    | cons d s ih =>
      unfold cut? at h
      split at h
      · next hd =>
        cases h
        exact ⟨d, rfl, nofun, hd⟩
      · next hd =>
        obtain ⟨⟨before', after'⟩, hcut, heq⟩ := Option.map_eq_some_iff.1 h
        cases heq
        obtain ⟨c, rfl, hbefore, hc⟩ := ih hcut
        refine ⟨c, rfl, fun d' hd' => ?_, hc⟩
        rcases List.mem_cons.1 hd' with rfl | hd'
        · simpa using hd
        · exact hbefore d' hd'
  · rintro ⟨c, rfl, hbefore, hc⟩
    exact cut?_append hbefore hc

end Cut

/-! ## The first word -/

/-- `w` is the first run of characters that are not blank. -/
inductive FirstWord (s w : List Char) : Prop
  | mk (lead rest : List Char) (eq : s = lead ++ (w ++ rest)) (lead_blank : ∀ c ∈ lead, isBlank c = true)
      (nonempty : w ≠ []) (word : ∀ c ∈ w, isBlank c = false)
      (stops : ∀ c, rest.head? = some c → isBlank c = true)

theorem firstWord?_eq_some_iff {s w : List Char} : firstWord? s = some w ↔ FirstWord s w := by
  constructor
  · intro h
    unfold firstWord? at h
    split at h
    · cases h
    · next c r hstart =>
      cases h
      have hc : isBlank c = false := isBlank_of_head?_dropWhile (s := s) (by rw [← trimStart, hstart]; rfl)
      refine .mk (s.takeWhile isBlank) ((c :: r).dropWhile fun d => !isBlank d) ?_
        (List.all_eq_true.1 List.all_takeWhile) ?_ (fun d hd => ?_) fun d hd => ?_
      · rw [List.takeWhile_append_dropWhile, ← hstart]
        exact List.takeWhile_append_dropWhile.symm
      · rw [List.takeWhile_cons_of_pos (by simp [hc])]
        exact List.cons_ne_nil _ _
      · simpa using List.all_eq_true.1 List.all_takeWhile d hd
      · have hnot := List.head?_dropWhile_not (fun d => !isBlank d) (c :: r)
        rw [hd] at hnot
        simpa using hnot
  · rintro ⟨lead, rest, rfl, hlead, hne, hword, hstops⟩
    obtain ⟨c, r, rfl⟩ := List.exists_cons_of_ne_nil hne
    have hstart : trimStart (lead ++ (c :: r ++ rest)) = c :: (r ++ rest) := by
      rw [trimStart, List.dropWhile_append_of_pos hlead, List.cons_append]
      exact List.dropWhile_cons_of_neg (by simp [hword c List.mem_cons_self])
    have hrest : rest.takeWhile (fun d => !isBlank d) = [] := by
      cases rest with
      | nil => rfl
      | cons d rest => exact List.takeWhile_cons_of_neg (by simp [hstops d rfl])
    rw [firstWord?, hstart]
    change some ((c :: r ++ rest).takeWhile fun d => !isBlank d) = _
    rw [List.takeWhile_append_of_pos fun d hd => by simp [hword d hd], hrest, List.append_nil]

/-! ## Quotes -/

/-- `t` is the text `s` without one pair of double quotes around it. -/
inductive Unquoted (s : List Char) : List Char → Prop
  | quoted {t : List Char} (eq : s = '"' :: (t ++ ['"'])) : Unquoted s t
  | plain (unquoted : ∀ t, s ≠ '"' :: (t ++ ['"'])) : Unquoted s s

theorem unquote_quoted (t : List Char) : unquote ('"' :: (t ++ ['"'])) = t := by
  rw [unquote, if_pos (by simp), List.dropLast_concat]

theorem unquote_of_ne {s : List Char} (h : ∀ t, s ≠ '"' :: (t ++ ['"'])) : unquote s = s := by
  unfold unquote
  split
  · split
    · next hlast =>
      obtain ⟨t, rfl⟩ := List.getLast?_eq_some_iff.1 hlast
      exact absurd rfl (h t)
    · rfl
  · rfl

theorem unquoted_iff {s t : List Char} : Unquoted s t ↔ unquote s = t := by
  constructor
  · intro h
    cases h with
    | quoted eq => rw [eq, unquote_quoted]
    | plain unquoted => exact unquote_of_ne unquoted
  · rintro rfl
    by_cases h : ∃ t, s = '"' :: (t ++ ['"'])
    · obtain ⟨t, rfl⟩ := h
      rw [unquote_quoted]
      exact .quoted rfl
    · rw [unquote_of_ne fun t ht => h ⟨t, ht⟩]
      exact .plain fun t ht => h ⟨t, ht⟩

/-! ## Prefixes by bytes -/

/-- The first `n` bytes of a text and the rest, if the cut is not inside a character or beyond the end. -/
def splitAtByte? : Nat → List Char → Option (List Char × List Char)
  | 0, s => some ([], s)
  | _ + 1, [] => none
  | n + 1, c :: s =>
    if c.utf8Size ≤ n + 1 then (splitAtByte? (n + 1 - c.utf8Size) s).map (Prod.map (c :: ·) id) else none

theorem splitAtByte?_append (before after : List Char) :
    splitAtByte? (byteLength before) (before ++ after) = some (before, after) := by
  induction before with
  | nil => rw [List.nil_append, byteLength_nil, splitAtByte?]
  | cons c before ih =>
    have hpos := c.utf8Size_pos
    obtain ⟨n, hn⟩ : ∃ n, byteLength (c :: before) = n + 1 := Nat.exists_eq_add_one.2 (by simp; omega)
    have hrest : n + 1 - c.utf8Size = byteLength before := by
      rw [← hn, byteLength_cons, Nat.add_sub_cancel_left]
    have hle : c.utf8Size ≤ n + 1 := by
      rw [← hn]
      exact Nat.le_add_right _ _
    rw [hn, List.cons_append, splitAtByte?, if_pos hle, hrest, ih]
    rfl

theorem splitAtByte?_eq_some_iff {n : Nat} {s before after : List Char} :
    splitAtByte? n s = some (before, after) ↔ s = before ++ after ∧ byteLength before = n := by
  constructor
  · intro h
    fun_induction splitAtByte? n s generalizing before with
    | case1 s =>
      cases h
      exact ⟨rfl, rfl⟩
    | case2 n => cases h
    | case3 n c s hle ih =>
      obtain ⟨⟨before', after'⟩, hsplit, heq⟩ := Option.map_eq_some_iff.1 h
      cases heq
      obtain ⟨rfl, hlength⟩ := ih hsplit
      exact ⟨rfl, by rw [byteLength_cons, hlength, Nat.add_sub_cancel' hle]⟩
    | case4 n c s hlt => cases h
  · rintro ⟨rfl, rfl⟩
    exact splitAtByte?_append before after

theorem utf8Size_of_isDigit {c : Char} (h : c.isDigit = true) : c.utf8Size = 1 := by
  simp only [Char.isDigit, Bool.and_eq_true, decide_eq_true_eq, ge_iff_le] at h
  have hle : c.val ≤ 127 := UInt32.le_trans h.2 (by decide)
  rw [Char.utf8Size]
  exact if_pos hle

theorem byteLength_of_isDigit {s : List Char} (h : ∀ c ∈ s, c.isDigit = true) :
    byteLength s = s.length := by
  induction s with
  | nil => rfl
  | cons c s ih =>
    rw [byteLength_cons, utf8Size_of_isDigit (h c List.mem_cons_self),
      ih fun d hd => h d (List.mem_cons_of_mem c hd), List.length_cons, Nat.add_comm]

end RhythmChart.Text
