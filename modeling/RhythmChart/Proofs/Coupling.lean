import Mathlib
import RhythmChart.Proofs.Settling

/-!
# Two computations side by side

`Coupled L E V x y` says that the computations `x` and `y`, started with logs that `L` relates, come to the
same kind of end: both to values that `V` relates or both to errors that `E` relates, and leave logs that `L`
relates.  There is a rule for each way to put computations together, so two readings are compared step by
step.
-/

namespace RhythmChart

/-- Both are values that are related, or both are errors that are related. -/
inductive ExceptRel {ε ε' β β' : Type} (E : ε → ε' → Prop) (V : β → β' → Prop) :
    Except ε β → Except ε' β' → Prop
  | error {e : ε} {e' : ε'} (h : E e e') : ExceptRel E V (.error e) (.error e')
  | ok {b : β} {b' : β'} (h : V b b') : ExceptRel E V (.ok b) (.ok b')

namespace ExceptRel

variable {ε ε' β β' γ γ' : Type} {E : ε → ε' → Prop} {V : β → β' → Prop} {W : γ → γ' → Prop}

theorem eq_iff {x y : Except ε β} : ExceptRel Eq Eq x y ↔ x = y := by
  constructor
  · rintro (rfl | rfl) <;> rfl
  · rintro rfl
    cases x with
    | error e => exact .error rfl
    | ok b => exact .ok rfl

theorem bind {x : Except ε β} {y : Except ε' β'} {f : β → Except ε γ} {g : β' → Except ε' γ'}
    (hx : ExceptRel E V x y) (hf : ∀ b b', V b b' → ExceptRel E W (f b) (g b')) :
    ExceptRel E W (x >>= f) (y >>= g) := by
  cases hx with
  | error he => exact .error he
  | ok hb => exact hf _ _ hb

theorem mapM {f : γ → Except ε β} {g : γ' → Except ε' β'}
    (hf : ∀ c c', W c c' → ExceptRel E V (f c) (g c')) {cs : List γ} {cs' : List γ'}
    (hcs : List.Forall₂ W cs cs') : ExceptRel E (List.Forall₂ V) (cs.mapM f) (cs'.mapM g) := by
  induction hcs with
  | nil => exact .ok .nil
  | cons hc _ ih =>
    rw [List.mapM_cons, List.mapM_cons]
    exact (hf _ _ hc).bind fun _ _ hb => ih.bind fun _ _ hbs => .ok (.cons hb hbs)

end ExceptRel

variable {α : Type} [Scalar α]

/-- From logs that `L` relates, the two computations come to values that `V` relates or to errors that `E`
relates, and leave logs that `L` relates. -/
def Coupled {β β' : Type} (L : Log α → Log α → Prop) (E : Spanned ParseError → Spanned ParseError → Prop)
    (V : β → β' → Prop) (x : Settling α β) (y : Settling α β') : Prop :=
  ∀ log log', L log log' →
    ExceptRel E V (x.run.run log).1 (y.run.run log').1 ∧ L (x.run.run log).2 (y.run.run log').2

namespace Coupled

variable {β β' γ γ' : Type} {L : Log α → Log α → Prop}
  {E : Spanned ParseError → Spanned ParseError → Prop} {V : β → β' → Prop} {W : γ → γ' → Prop}

theorem pure {b : β} {b' : β'} (h : V b b') : Coupled L E V (Pure.pure b) (Pure.pure b') :=
  fun _ _ hlog => ⟨.ok h, hlog⟩

theorem stop {e e' : ParseError} {span span' : Span} (h : E ⟨e, span⟩ ⟨e', span'⟩) :
    Coupled L E V (RhythmChart.stop e span) (RhythmChart.stop e' span') :=
  fun _ _ hlog => ⟨.error h, hlog⟩

theorem bind {x : Settling α β} {y : Settling α β'} {f : β → Settling α γ} {g : β' → Settling α γ'}
    (hx : Coupled L E V x y) (hf : ∀ b b', V b b' → Coupled L E W (f b) (g b')) :
    Coupled L E W (x >>= f) (y >>= g) := by
  intro log log' h
  obtain ⟨hresult, hlog⟩ := hx log log' h
  rw [Yields.run_bind, Yields.run_bind]
  generalize x.run.run log = r at *
  generalize y.run.run log' = r' at *
  obtain ⟨result, l⟩ := r
  obtain ⟨result', l'⟩ := r'
  cases hresult with
  | error he => exact ⟨.error he, hlog⟩
  | ok hb => exact hf _ _ hb l l' hlog

theorem foldlM {f : β → γ → Settling α β} {g : β' → γ' → Settling α β'}
    (hf : ∀ b b' c c', V b b' → W c c' → Coupled L E V (f b c) (g b' c')) {b : β} {b' : β'} (hb : V b b')
    {cs : List γ} {cs' : List γ'} (hcs : List.Forall₂ W cs cs') :
    Coupled L E V (cs.foldlM f b) (cs'.foldlM g b') := by
  induction hcs generalizing b b' with
  | nil => exact pure hb
  | cons hc _ ih =>
    rw [List.foldlM_cons, List.foldlM_cons]
    exact (hf _ _ _ _ hb hc).bind fun _ _ h => ih h

theorem mapM {f : γ → Settling α β} {g : γ' → Settling α β'}
    (hf : ∀ c c', W c c' → Coupled L E V (f c) (g c')) {cs : List γ} {cs' : List γ'}
    (hcs : List.Forall₂ W cs cs') : Coupled L E (List.Forall₂ V) (cs.mapM f) (cs'.mapM g) := by
  induction hcs with
  | nil => exact pure .nil
  | cons hc _ ih =>
    rw [List.mapM_cons, List.mapM_cons]
    exact (hf _ _ hc).bind fun _ _ hb => ih.bind fun _ _ hbs => pure (.cons hb hbs)

end Coupled

end RhythmChart
