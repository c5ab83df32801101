/-!
# Digits of base 36

`0` to `9`, then the ASCII letters of either case.  Digits are written in upper case.  A BPM definition is named
by two digits, high digit first, so by a number below 1296.  The channel of a message tells what its slots are:
the first character is the kind; taps have a lane, slides a lane and the channel that pairs their ends.
-/

namespace RhythmChart

abbrev Digit := Fin 36

namespace Digit

def ofChar? (c : Char) : Option Digit :=
  if h : 48 ≤ c.toNat ∧ c.toNat ≤ 57 then some ⟨c.toNat - 48, by omega⟩
  else if h : 65 ≤ c.toNat ∧ c.toNat ≤ 90 then some ⟨c.toNat - 55, by omega⟩
  else if h : 97 ≤ c.toNat ∧ c.toNat ≤ 122 then some ⟨c.toNat - 87, by omega⟩
  else none

def toChar (d : Digit) : Char :=
  if d.val < 10 then Char.ofNat (48 + d.val) else Char.ofNat (55 + d.val)

def char? (n : Nat) : Option Char := if h : n < 36 then some (toChar ⟨n, h⟩) else none

theorem ofChar?_toChar (d : Digit) : ofChar? (toChar d) = some d := by
  revert d; decide

end Digit

/-! ## Names of BPM definitions -/

structure BpmId where
  /-- The number that the two digits write. -/
  value : Fin 1296
  deriving DecidableEq

namespace BpmId

instance : Ord BpmId where
  compare a b := compare a.value b.value

instance : Std.TransOrd BpmId where
  eq_swap := Std.OrientedOrd.eq_swap (α := Fin 1296)
  isLE_trans := Std.TransOrd.isLE_trans (α := Fin 1296)

instance : Std.LawfulEqOrd BpmId where
  eq_of_compare {a b} h := by
    cases a; cases b
    exact congrArg BpmId.mk (Std.LawfulEqOrd.eq_of_compare h)

def ofDigits (high low : Digit) : BpmId := ⟨⟨36 * high.val + low.val, by omega⟩⟩

/-- The name with this number, if two digits suffice for it. -/
def ofNat? (n : Nat) : Option BpmId := if h : n < 1296 then some ⟨⟨n, h⟩⟩ else none

def high (i : BpmId) : Digit := ⟨i.value.val / 36, by omega⟩

def low (i : BpmId) : Digit := ⟨i.value.val % 36, by omega⟩

theorem ofDigits_high_low (i : BpmId) : ofDigits i.high i.low = i := by
  obtain ⟨⟨n, h⟩⟩ := i
  simp only [ofDigits, high, low, mk.injEq, Fin.mk.injEq]
  omega

def ofText? : List Char → Option BpmId
  | [a, b] => do return ofDigits (← Digit.ofChar? a) (← Digit.ofChar? b)
  | _ => none

def text (i : BpmId) : List Char := [i.high.toChar, i.low.toChar]

instance : ToString BpmId where
  toString i := String.ofList i.text

/-- The name as it is shown when the number itself is inspected. -/
def debugText (i : BpmId) : String := "BpmId(\"" ++ toString i ++ "\")"

end BpmId

/-! ## Channels of messages -/

/-- What the slots of a message are. -/
inductive Channel where
  | beatsPerMeasure
  | bpmChange
  | tap (lane : Nat)
  /-- Starts and ends of slides on a lane, paired by a channel. -/
  | slide (lane channel : Nat)
  /-- A kind that is not decoded. -/
  | unsupported (kind : Char)
  deriving DecidableEq

namespace Channel

/-- Reads a channel.  Characters beyond those that a kind calls for are ignored. -/
def ofText? : List Char → Option Channel
  | [] => none
  | '0' :: s =>
    if s = ['2'] then some .beatsPerMeasure
    else if s = ['8'] then some .bpmChange
    else if s = [] then none
    else some (.unsupported '0')
  | '1' :: s => do
    let lane ← s[0]?.bind Digit.ofChar?
    return .tap lane.val
  | '3' :: s => do
    let lane ← s[0]?.bind Digit.ofChar?
    let channel ← s[1]?.bind Digit.ofChar?
    return .slide lane.val channel.val
  | kind :: _ => if kind.isAlphanum then some (.unsupported kind) else none

/-- The digit of a number, a question mark if it is too large. -/
def digit (n : Nat) : Char := (Digit.char? n).getD '?'

def text : Channel → List Char
  | .beatsPerMeasure => ['0', '2']
  | .bpmChange => ['0', '8']
  | .tap lane => ['1', digit lane]
  | .slide lane channel => ['3', digit lane, digit channel]
  | .unsupported kind => [kind, '?']

instance : ToString Channel where
  toString c := String.ofList c.text

end Channel

end RhythmChart
