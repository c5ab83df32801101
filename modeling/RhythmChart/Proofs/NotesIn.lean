import RhythmChart.Proofs.Chronology
import RhythmChart.Proofs.Notes

/-!
# Notes of a stretch of time

`Song.notesIn` searches for the first note of a stretch of time and goes on from there as far as the
stretch lasts.  Notes are sorted by the total order of their first times, and compared with the ends of
the stretch numerically.  The two orders differ on the zeros, and the numeric one is none on undefined
numbers; but if no first time is undefined, what is sorted by the first is sorted by the second
(`Song.Timed.pairwise_le`).  So the search gives the notes that going through all of them gives, and
stretches that follow each other share no note and miss none (`Song.notesIn_eq_filter`).
-/

namespace RhythmChart

open Binary64

/-- What is true of an element whenever it is true of a later one is true of a first part only. -/
theorem takeWhile_eq_filter {σ : Type} {p : σ → Bool} {xs : List σ}
    (h : xs.Pairwise fun x y => p y = true → p x = true) : xs.takeWhile p = xs.filter p := by
  induction xs with
  | nil => rfl
  | cons x xs ih =>
    obtain ⟨hx, hxs⟩ := List.pairwise_cons.1 h
    by_cases hp : p x = true
    · rw [List.takeWhile_cons_of_pos hp, List.filter_cons_of_pos hp, ih hxs]
    · have hrest : xs.filter p = [] := List.filter_eq_nil_iff.2 fun y hy hpy => hp (hx y hy hpy)
      rw [List.takeWhile_cons_of_neg hp, List.filter_cons_of_neg hp, hrest]

namespace Song

/-- The notes are in the total order of their first times, and none of these is undefined. -/
structure Timed (s : Song Float) : Prop where
  sorted : s.notes.toList.Pairwise fun m n => Scalar.totalLE m.firstTime n.firstTime = true
  defined : ∀ n ∈ s.notes, n.firstTime.isNaN = false

/-- A note begins at `start` or later and before `stop`. -/
def BeginsIn (start stop : Float) (n : Note (Point Float)) : Prop :=
  start ≤ n.firstTime ∧ n.firstTime < stop

instance (start stop : Float) : DecidablePred (BeginsIn start stop) :=
  fun _ => inferInstanceAs (Decidable (_ ∧ _))

namespace Timed

variable {s : Song Float} (h : s.Timed)

include h

theorem pairwise_le : s.notes.toList.Pairwise fun m n => m.firstTime ≤ n.firstTime := by
  refine h.sorted.imp_of_mem fun {m n} hm hn hle => ?_
  exact le_of_rank_le (h.defined m (Array.mem_toList_iff.1 hm)) (h.defined n (Array.mem_toList_iff.1 hn))
    (of_decide_eq_true hle)

theorem pairwise_lt (time : Float) : s.notes.toList.Pairwise fun m n =>
    decide (n.firstTime < time) = true → decide (m.firstTime < time) = true :=
  h.pairwise_le.imp fun hle hlt => decide_eq_true (lt_of_le_of_lt hle (of_decide_eq_true hlt))

theorem partitioned (time : Float) : Partitioned s.notes fun n => decide (n.firstTime < time) :=
  .of_pairwise (h.pairwise_lt time)

/-- The search gives the notes of the stretch. -/
theorem notesIn_eq {start : Float} (hstart : start.isNaN = false) (stop : Float) :
    s.notesIn start stop = s.notes.toList.filter fun n => decide (BeginsIn start stop n) := by
  have hlater : (s.notes.toList.filter fun n => !decide (n.firstTime < start)).Pairwise fun m n =>
      decide (n.firstTime < stop) = true → decide (m.firstTime < stop) = true :=
    (h.pairwise_lt stop).sublist List.filter_sublist
  calc s.notesIn start stop
      = (s.notes.toList.filter fun n => !decide (n.firstTime < start)).takeWhile
          fun n => decide (n.firstTime < stop) := by
        rw [filter_not_eq_drop (h.partitioned start)]
        rfl
    _ = s.notes.toList.filter
          fun n => decide (n.firstTime < stop) && !decide (n.firstTime < start) := by
        rw [takeWhile_eq_filter hlater, List.filter_filter]
    _ = s.notes.toList.filter fun n => decide (BeginsIn start stop n) := by
        refine List.filter_congr fun n hn => ?_
        have hdefined := h.defined n (Array.mem_toList_iff.1 hn)
        rw [← decide_not, ← Bool.decide_and, decide_eq_decide, not_lt_iff hdefined hstart, and_comm]
        rfl

/-- A stretch is cut in two at a time between its ends: what begins before it and what does not. -/
theorem notesIn_append {start middle stop : Float} (hstart : start ≤ middle) (hstop : middle ≤ stop) :
    s.notesIn start middle ++ s.notesIn middle stop = s.notesIn start stop := by
  obtain ⟨hstart', hmiddle, -⟩ := le_iff.1 hstart
  have hearlier : s.notesIn start middle =
      (s.notes.toList.filter fun n => decide (n.firstTime < middle)).filter
        fun n => decide (BeginsIn start stop n) := by
    rw [h.notesIn_eq hstart', List.filter_filter]
    refine List.filter_congr fun n _ => ?_
    rw [← Bool.decide_and, decide_eq_decide]
    constructor
    · rintro ⟨hle, hlt⟩
      exact ⟨⟨hle, lt_of_lt_of_le hlt hstop⟩, hlt⟩
    · rintro ⟨⟨hle, -⟩, hlt⟩
      exact ⟨hle, hlt⟩
  have hlater : s.notesIn middle stop =
      (s.notes.toList.filter fun n => !decide (n.firstTime < middle)).filter
        fun n => decide (BeginsIn start stop n) := by
    rw [h.notesIn_eq hmiddle, List.filter_filter]
    refine List.filter_congr fun n hn => ?_
    have hdefined := h.defined n (Array.mem_toList_iff.1 hn)
    rw [← decide_not, ← Bool.decide_and, decide_eq_decide, not_lt_iff hdefined hmiddle]
    constructor
    · rintro ⟨hle, hlt⟩
      exact ⟨⟨le_trans hstart hle, hlt⟩, hle⟩
    · rintro ⟨⟨-, hlt⟩, hle⟩
      exact ⟨hle, hlt⟩
  rw [hearlier, hlater, ← List.filter_append, filter_append_filter_not (h.partitioned middle),
    h.notesIn_eq hstart']

end Timed

/-- The notes of an accepted chart are sorted, so it is enough that no first time is undefined. -/
theorem timed_of_ofTokens {prompter : Prompter Float} {ts : List (Spanned (Token Float))}
    {chart : Chart Float} (h : (Chart.ofTokens prompter ts).result = .ok chart)
    (hdefined : ∀ n ∈ chart.song.notes, n.firstTime.isNaN = false) : chart.song.Timed := by
  obtain ⟨r, defs, m⟩ := Chart.exists_madeOf h
  refine ⟨?_, hdefined⟩
  rw [m.notes]
  exact (sortedFrom_mergeSort Note.firstTime _).ordered

/-- The notes of a stretch of time are those that going through all notes finds, in their order.  So
stretches that follow each other share no note and miss none. -/
theorem notesIn_eq_filter {s : Song Float} (h : s.Timed) :
    (∀ start stop : Float, start.isNaN = false →
      s.notesIn start stop = s.notes.toList.filter fun n => decide (BeginsIn start stop n)) ∧
    ∀ start middle stop : Float, start ≤ middle → middle ≤ stop →
      s.notesIn start middle ++ s.notesIn middle stop = s.notesIn start stop :=
  ⟨fun _ stop hstart => h.notesIn_eq hstart stop, fun _ _ _ => h.notesIn_append⟩

/-- One note at the zero that is not negative, and two at two seconds.  The first of them begins at the
negative zero too, and none is lost or counted twice where the stretch is cut at two seconds. -/
theorem notesIn_eq_filter_of_zeros :
    ∃ chart, (Chart.read (Prompter.always .halt)
        "#BPM01:60\n#00008:01\n#00010:1414\n#00018:0014".toList).result = .ok chart ∧
      chart.song.Timed ∧ (chart.song.notesIn (-0) 2).length = 1 ∧ (chart.song.notesIn 2 3).length = 2 ∧
      chart.song.notesIn (-0) 2 ++ chart.song.notesIn 2 3 = chart.song.notesIn (-0) 3 := by
  obtain ⟨ts, chart, hscan, hok, hcheck⟩ := Chart.exists_read_of_check (Prompter.always .halt)
    "#BPM01:60\n#00008:01\n#00010:1414\n#00018:0014".toList
    (fun _ chart =>
      chart.song.notes.all (fun n => !n.firstTime.isNaN) &&
      decide ((chart.song.notes.toList.filter fun n => decide (BeginsIn (-0) 2 n)).length = 1) &&
      decide ((chart.song.notes.toList.filter fun n => decide (BeginsIn 2 3 n)).length = 2))
    (by
      unfold Chart.ofTokens Chart.resolve Chart.assembleSong BpmTimeline.ofChanges?
      rw [Token.scan_eq_mapM, BpmTimeline.sort_eq_insertionSort, Chart.placeNotes_eq_insertionSort]
      decide +kernel)
  simp only [Bool.and_eq_true, Array.all_eq_true', decide_eq_true_iff, Bool.not_eq_true'] at hcheck
  obtain ⟨⟨hdefined, hone⟩, htwo⟩ := hcheck
  obtain ⟨ts', hscan', hok'⟩ := Chart.read_eq_ok_iff.1 hok
  have htimed := timed_of_ofTokens hok' hdefined
  obtain ⟨hfilter, happend⟩ := notesIn_eq_filter htimed
  rw [← hfilter (-0) 2 (by decide)] at hone
  rw [← hfilter 2 3 (by decide)] at htwo
  exact ⟨chart, hok, htimed, hone, htwo, happend (-0) 2 3 (by decide) (by decide)⟩

end Song

end RhythmChart
