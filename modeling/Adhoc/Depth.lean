import Adhoc.Defect

namespace Adhoc

/-- The depth of the operand stack while code is appended, with its highest and lowest mark. A rise
moves only the high mark and a fall only the low one. -/
structure Depth where
  current : Int := 0
  highest : Int := 0
  lowest : Int := 0
deriving DecidableEq, Repr

/-- One step of an operation's effect. -/
inductive Move
  | push (count : Nat)
  | pop (count : Nat)
deriving DecidableEq, Repr

def Move.count : Move → Nat
  | .push n | .pop n => n

/-- Whether a number is a signed 32-bit word. -/
def isSignedWord (i : Int) : Bool := -0x80000000 ≤ i && i ≤ 0x7FFFFFFF

/-- The signed 32-bit word with the low bits of `n`. -/
def signedWord (n : Nat) : Int := Int.bmod n 0x100000000

theorem signedWord_of_lt {n : Nat} (h : n < 0x80000000) : signedWord n = n :=
  Int.bmod_eq_of_le (by omega) (by omega)

namespace Depth

def push (d : Depth) (n : Int) : Depth :=
  { d with current := d.current + n, highest := max d.highest (d.current + n) }

def pop (d : Depth) (n : Int) : Depth :=
  { d with current := d.current - n, lowest := min d.lowest (d.current - n) }

@[simp] theorem push_current (d : Depth) (n : Int) : (d.push n).current = d.current + n := rfl

@[simp] theorem pop_current (d : Depth) (n : Int) : (d.pop n).current = d.current - n := rfl

@[simp] theorem push_lowest (d : Depth) (n : Int) : (d.push n).lowest = d.lowest := rfl

@[simp] theorem pop_highest (d : Depth) (n : Int) : (d.pop n).highest = d.highest := rfl

def move (d : Depth) : Move → Depth
  | .push n => d.push n
  | .pop n => d.pop n

def follow (d : Depth) (moves : List Move) : Depth := moves.foldl move d

def push? (d : Depth) (n : Int) : Except Defect Depth :=
  if isSignedWord (d.current + n) then .ok (d.push n) else .error .pushOverflow

def pop? (d : Depth) (n : Int) : Except Defect Depth :=
  if isSignedWord (d.current - n) then .ok (d.pop n) else .error .popOverflow

def move? (d : Depth) : Move → Except Defect Depth
  | .push n => d.push? (signedWord n)
  | .pop n => d.pop? (signedWord n)

/-- As `follow`, with counts and the depth in 32-bit words. -/
def follow? (d : Depth) : List Move → Except Defect Depth
  | [] => .ok d
  | m :: rest =>
    match d.move? m with
    | .ok d => d.follow? rest
    | .error e => .error e

theorem move?_eq_ok {d d' : Depth} {m : Move} (hm : m.count < 0x80000000)
    (h : d.move? m = .ok d') : d' = d.move m := by
  cases m <;> simp only [Move.count] at hm <;>
    simp only [move?, push?, pop?, signedWord_of_lt hm] at h <;> split at h <;>
    simp_all [move]

theorem follow?_eq_ok {moves : List Move} {d d' : Depth}
    (hm : ∀ m ∈ moves, m.count < 0x80000000) (h : d.follow? moves = .ok d') :
    d' = d.follow moves := by
  induction moves generalizing d with
  | nil => simp_all [follow?, follow]
  | cons m rest ih =>
    unfold follow? at h
    split at h
    · rename_i d1 h1
      rw [move?_eq_ok (hm m (by simp)) h1] at h
      simpa [follow] using ih (fun m hr => hm m (by simp [hr])) h
    · simp at h

end Depth
end Adhoc
