import RhythmChart.Assembly
import RhythmChart.Proofs.TempoChanges

/-!
# What warnings are about

Warnings come from three sources: repeated declarations, definitions and their placements, and slides.
Each source gives warnings about its own topic only.
-/

namespace RhythmChart

namespace Warning

inductive Topic where
  | repetition
  | tempo
  | slide
  deriving DecidableEq

def topic : Warning → Topic
  | .unclosedSlide _ _ => .slide
  | .unmatchedSlideEnd _ _ => .slide
  | .unplacedBpm _ => .tempo
  | .implicitInitialBpm _ => .tempo
  | .duplicateBpmDefinition _ => .repetition
  | .duplicateBpmPlacement _ => .repetition
  | .duplicateBeatsPerMeasure _ => .repetition

/-- Warnings on one topic, cut down to a topic. -/
theorem filter_topic {ws : List (Spanned Warning)} {topic' : Topic}
    (h : ∀ w ∈ ws, w.content.topic = topic') (topic : Topic) :
    (ws.filter fun w => w.content.topic = topic) = if topic' = topic then ws else [] := by
  split
  · next heq => exact List.filter_eq_self.2 fun w hw => decide_eq_true ((h w hw).trans heq)
  · next hne =>
    exact List.filter_eq_nil_iff.2 fun w hw heq => hne ((h w hw).symm.trans (of_decide_eq_true heq))

/-- What is read off the warnings on one topic only is read off the warnings on it. -/
theorem filterMap_filter_topic {β : Type} {f : Warning → Option β} {topic : Topic}
    (hf : ∀ w, w.topic ≠ topic → f w = none) (ws : List (Spanned Warning)) :
    ((ws.filter fun w => w.content.topic = topic).filterMap fun w => f w.content) =
      ws.filterMap fun w => f w.content := by
  rw [List.filterMap_filter]
  refine List.filterMap_congr fun w _ => ?_
  split
  · rfl
  · next hne => exact (hf w.content (by simpa using hne)).symm

theorem countP_filter_topic {p : Warning → Bool} {topic : Topic}
    (hp : ∀ w, p w = true → w.topic = topic) (ws : List (Spanned Warning)) :
    (ws.filter fun w => w.content.topic = topic).countP (fun w => p w.content) =
      ws.countP fun w => p w.content := by
  rw [List.countP_filter]
  refine List.countP_congr fun w _ => ?_
  simp only [Bool.and_eq_true, decide_eq_true_eq]
  exact ⟨fun h => h.1, fun h => ⟨h, hp w.content h⟩⟩

end Warning

section Chart

variable {α : Type} [Scalar α]

theorem topic_of_mem_duplicateWarnings {κ ν : Type} {rs : List (Ruling α κ ν)}
    {w : Spanned Warning} (h : w ∈ duplicateWarnings rs) : w.content.topic = .repetition := by
  obtain ⟨r, -, hr⟩ := List.mem_filterMap.1 h
  obtain ⟨⟨duplication, choice⟩, -, rfl⟩ := Ruling.exists_of_warning? hr
  cases duplication <;> rfl

/-- Each warning about tempo is about a definition. -/
theorem exists_of_mem_tempoChanges {defs : List (Definition α)}
    {placed : Kept BpmId (Placement α)} {w : Spanned Warning}
    (h : w ∈ (tempoChanges defs placed).2) : ∃ d ∈ defs, w = d.unplaced ∨ w = d.implicit := by
  unfold tempoChanges at h
  split at h
  · cases defs with
    | nil => cases h
    | cons d defs =>
      rcases List.mem_cons.1 h with rfl | h
      · exact ⟨d, List.mem_cons_self, .inr rfl⟩
      · obtain ⟨d', hd', rfl⟩ := List.mem_map.1 h
        exact ⟨d', List.mem_cons_of_mem d hd', .inl rfl⟩
  · obtain ⟨d, hd, rfl⟩ := List.mem_map.1 h
    exact ⟨d, List.mem_of_mem_filter hd, .inl rfl⟩

theorem topic_of_mem_tempoChanges {defs : List (Definition α)}
    {placed : Kept BpmId (Placement α)} {w : Spanned Warning}
    (h : w ∈ (tempoChanges defs placed).2) : w.content.topic = .tempo := by
  obtain ⟨d, -, rfl | rfl⟩ := exists_of_mem_tempoChanges h <;> rfl

end Chart

namespace Assembly

variable {α : Type}

/-- All warnings are about slides. -/
def OnSlides (a : Assembly α) : Prop := ∀ w ∈ a.warnings, w.content.topic = .slide

theorem OnSlides.append {a b : Assembly α} (ha : a.OnSlides) (hb : b.OnSlides) :
    (a ++ b).OnSlides := by
  intro w hw
  rcases List.mem_append.1 hw with hw | hw
  · exact ha w hw
  · exact hb w hw

theorem onSlides_of_nil {notes : List (Note (Mark α))} : OnSlides ⟨notes, []⟩ :=
  fun _ hw => absurd hw List.not_mem_nil

theorem onSlides_unclosed (channel : Nat) (s : Option (OpenSlide α)) :
    (unclosed channel s).OnSlides := by
  cases s with
  | none => exact onSlides_of_nil
  | some s =>
    intro w hw
    rw [List.mem_singleton.1 hw]
    rfl

theorem onSlides_unmatched (channel : Nat) (time : SlotTime) (span : Span) :
    (unmatched channel time span : Assembly α).OnSlides := by
  intro w hw
  rw [List.mem_singleton.1 hw]
  rfl

theorem onSlides_slideLine (lane channel : Nat) (span : Span)
    (onLine onChannel : Option (OpenSlide α)) (slots : List (Slot α)) :
    (slideLine lane channel span onLine onChannel slots).1.OnSlides := by
  fun_induction slideLine lane channel span onLine onChannel slots with
  | case1 => exact onSlides_of_nil
  | case2 => exact onSlides_unclosed _ _
  | case3 _ _ _ _ _ _ _ heq ih =>
    rw [heq] at ih
    exact (onSlides_unclosed _ _).append ih
  | case4 _ _ _ _ _ _ _ _ _ ih => exact onSlides_of_nil.append ih
  | case5 _ _ _ _ _ _ _ heq ih =>
    rw [heq] at ih
    exact onSlides_of_nil.append ih
  | case6 _ _ _ _ _ _ heq ih =>
    rw [heq] at ih
    exact (onSlides_unmatched _ _ _).append ih
  | case7 _ _ _ _ _ _ ih => exact ih

theorem onSlides_assembleFrom (opened : OpenSlides α) (lines : List (LaneLine α)) :
    (assembleFrom opened lines).OnSlides := by
  induction lines generalizing opened with
  | nil =>
    intro w hw
    obtain ⟨_, -, rfl⟩ := List.mem_map.1 hw
    rfl
  | cons line lines ih =>
    cases line with
    | taps lane slots => exact onSlides_of_nil.append (ih _)
    | slides lane channel slots span => exact (onSlides_slideLine _ _ _ _ _ _).append (ih _)

theorem onSlides_assemble (lines : List (LaneLine α)) : (assemble lines).OnSlides :=
  onSlides_assembleFrom ∅ lines

end Assembly

end RhythmChart
