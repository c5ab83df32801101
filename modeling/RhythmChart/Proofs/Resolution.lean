import RhythmChart.Proofs.Slots
import RhythmChart.Proofs.Stages

/-!
# Messages in a finer resolution

A message can be written with more slots than it needs: `Slot.refine k` puts `k` empty slots after each
slot, so that the slot `i` of `n` becomes the slot `i * (k + 1)` of `n * (k + 1)`.  Both are one position
of the track (`SlotTime.of?_mul`), and empty slots leave no trace, so the objects are the same
(`Slot.decode_refine`).  `ofTokens_refine_message` carries this to whole charts.
-/

namespace RhythmChart

variable {α : Type} [Scalar α]

/-- A position has one time, whatever the number of slots it is counted in. -/
theorem SlotTime.of?_mul (track : Track) (n d k : Nat) :
    of? track (n * (k + 1)) (d * (k + 1)) = of? track n d := by
  have hlt : n * (k + 1) < d * (k + 1) ↔ n < d := Nat.mul_lt_mul_right k.succ_pos
  have hdiv (m : Nat) : m * (k + 1) / (n.gcd d * (k + 1)) = m / n.gcd d :=
    Nat.mul_div_mul_right _ _ k.succ_pos
  unfold of?
  simp only [Nat.gcd_mul_right, hdiv, hlt]

namespace Slot

/-! ## More slots -/

/-- Slots with `k` empty ones after each of them. -/
def spread (k : Nat) (slots : List (Char × Char)) : List (Char × Char) :=
  slots.flatMap fun s => s :: List.replicate k ('0', '0')

/-- A payload with `k` empty slots after each of its slots.  A last character that makes no slot is
dropped. -/
def refine (k : Nat) (payload : List Char) : List Char :=
  (spread k (pairs payload)).flatMap fun (a, b) => [a, b]

/-- Two slots written as six, without the character after them. -/
example : refine 2 "1a2bz".toList = "1a00002b0000".toList := by decide

theorem pairs_flatMap (slots : List (Char × Char)) :
    pairs (slots.flatMap fun (a, b) => [a, b]) = slots := by
  induction slots with
  | nil => rfl
  | cons s slots ih => exact congrArg (s :: ·) ih

theorem length_spread (k : Nat) (slots : List (Char × Char)) :
    (spread k slots).length = slots.length * (k + 1) := by
  simp [spread, List.length_flatMap, List.map_const']

/-! ## The objects -/

theorem read?_silent (measures : MeasureTimeline α) (track : Track) (n i : Nat) :
    read? measures track n i '0' '0' = none := rfl

/-- A slot is the same object in the finer resolution. -/
theorem read?_mul (measures : MeasureTimeline α) (track : Track) (n i k : Nat) (a b : Char) :
    read? measures track (n * (k + 1)) (i * (k + 1)) a b = read? measures track n i a b := by
  unfold read?
  rw [SlotTime.of?_mul]

/-- The objects of the slots from the slot `i` of `n` on. -/
def objects (measures : MeasureTimeline α) (track : Track) (n i : Nat)
    (slots : List (Char × Char)) : List (Slot α) :=
  (slots.zipIdx i).filterMap fun ((a, b), i) => read? measures track n i a b

theorem decode_eq_objects (measures : MeasureTimeline α) (track : Track) (payload : List Char) :
    decode measures track payload =
      objects measures track (pairs payload).length 0 (pairs payload) := by
  rw [length_pairs]
  rfl

theorem objects_append (measures : MeasureTimeline α) (track : Track) (n i : Nat)
    (slots slots' : List (Char × Char)) :
    objects measures track n i (slots ++ slots') =
      objects measures track n i slots ++ objects measures track n (i + slots.length) slots' := by
  simp only [objects, List.zipIdx_append, List.filterMap_append]

theorem objects_replicate (measures : MeasureTimeline α) (track : Track) (n i k : Nat) :
    objects measures track n i (List.replicate k ('0', '0')) = [] := by
  refine List.filterMap_eq_nil_iff.2 fun ((a, b), j) hmem => ?_
  obtain ⟨-, -, hslot⟩ := List.mem_zipIdx hmem
  rw [List.getElem_replicate] at hslot
  cases hslot
  exact read?_silent measures track n j

theorem objects_spread (measures : MeasureTimeline α) (track : Track) (n i k : Nat)
    (slots : List (Char × Char)) :
    objects measures track (n * (k + 1)) (i * (k + 1)) (spread k slots) =
      objects measures track n i slots := by
  induction slots generalizing i with
  | nil => rfl
  | cons s slots ih =>
    have hsplit : spread k (s :: slots) = [s] ++ List.replicate k ('0', '0') ++ spread k slots := rfl
    have hnext : i * (k + 1) + ([s] ++ List.replicate k ('0', '0')).length = (i + 1) * (k + 1) := by
      rw [List.length_append, List.length_replicate, List.length_singleton, Nat.add_mul]
      omega
    have hfirst : objects measures track (n * (k + 1)) (i * (k + 1)) [s] =
        objects measures track n i [s] := by
      simp only [objects, List.zipIdx_singleton, List.filterMap_cons, List.filterMap_nil, read?_mul]
    calc objects measures track (n * (k + 1)) (i * (k + 1)) (spread k (s :: slots))
        = objects measures track (n * (k + 1)) (i * (k + 1)) [s] ++
            objects measures track (n * (k + 1)) ((i + 1) * (k + 1)) (spread k slots) := by
          rw [hsplit, objects_append, hnext, objects_append, objects_replicate, List.append_nil]
      _ = objects measures track n i [s] ++ objects measures track n (i + 1) slots := by
          rw [hfirst, ih]
      _ = objects measures track n i (s :: slots) := (objects_append measures track n i [s] slots).symm

/-- A payload with more empty slots writes the same objects. -/
theorem decode_refine (measures : MeasureTimeline α) (track : Track) (k : Nat)
    (payload : List Char) :
    decode measures track (refine k payload) = decode measures track payload := by
  have hpairs : pairs (refine k payload) = spread k (pairs payload) := pairs_flatMap _
  rw [decode_eq_objects, decode_eq_objects, hpairs, length_spread]
  have := objects_spread measures track (pairs payload).length 0 k (pairs payload)
  rwa [Nat.zero_mul] at this

end Slot

namespace Chart

/-- A message adds to what is collected no more than its objects. -/
theorem collect_message_congr (prompter : Prompter α) (measures : MeasureTimeline α)
    (c : Collected α) (track : Track) (channel : Channel) {payload payload' : String} (span : Span)
    (h : Slot.decode measures track payload.toList = Slot.decode measures track payload'.toList) :
    collect prompter measures c ⟨.message track channel payload, span⟩ =
      collect prompter measures c ⟨.message track channel payload', span⟩ := by
  simp only [collect, h]

/-- The resolution that a message is written in changes nothing of what a chart comes to. -/
theorem ofTokens_refine_message (prompter : Prompter α) (before after : List (Spanned (Token α)))
    (track : Track) (channel : Channel) (payload : String) (span : Span) (k : Nat) :
    ofTokens prompter
        (before ++ ⟨.message track channel (.ofList (Slot.refine k payload.toList)), span⟩ :: after) =
      ofTokens prompter (before ++ ⟨.message track channel payload, span⟩ :: after) := by
  have hbeats (kept : Kept Track (Finite α)) (payload : String) :
      collectBeats prompter kept ⟨.message track channel payload, span⟩ = pure kept := rfl
  have hcollect (measures : MeasureTimeline α) (c : Collected α) :
      collect prompter measures c
          ⟨.message track channel (.ofList (Slot.refine k payload.toList)), span⟩ =
        collect prompter measures c ⟨.message track channel payload, span⟩ :=
    collect_message_congr prompter measures c track channel span
      (by rw [String.toList_ofList, Slot.decode_refine])
  unfold ofTokens resolve
  simp only [hbeats, List.foldlM_append, List.foldlM_cons, hcollect]

end Chart

end RhythmChart
