import Mathlib.Algebra.Order.Round
import Mathlib.Data.Rat.Floor
import Mathlib.Tactic

namespace Lark.Base

-- A floating-point value with its finite part exact: rounding is not modelled, the special values
-- that comparison and division can produce are.
inductive Double where
  | num (q : ℚ)
  | inf (negative : Bool)
  | nan
  deriving DecidableEq

namespace Double

instance : OfNat Double n := ⟨num n⟩

def neg : Double → Double
  | num q => num (-q)
  | inf s => inf (!s)
  | nan => nan

instance : Neg Double := ⟨neg⟩

def add : Double → Double → Double
  | num a, num b => num (a + b)
  | inf s, num _ => inf s
  | num _, inf s => inf s
  | inf s, inf t => if s = t then inf s else nan
  | _, _ => nan

instance : Add Double := ⟨add⟩

instance : Sub Double := ⟨fun a b => a + -b⟩

def signBit (q : ℚ) : Bool := q < 0

def mul : Double → Double → Double
  | num a, num b => num (a * b)
  | inf s, num b => if b = 0 then nan else inf (s ^^ signBit b)
  | num a, inf t => if a = 0 then nan else inf (signBit a ^^ t)
  | inf s, inf t => inf (s ^^ t)
  | _, _ => nan

instance : Mul Double := ⟨mul⟩

def div : Double → Double → Double
  | num a, num b => if b = 0 then if a = 0 then nan else inf (signBit a) else num (a / b)
  | inf s, num b => inf (s ^^ signBit b)
  | num _, inf _ => num 0
  | _, _ => nan

instance : Div Double := ⟨div⟩

def lt : Double → Double → Bool
  | num a, num b => a < b
  | inf s, num _ => s
  | num _, inf t => !t
  | inf s, inf t => s && !t
  | _, _ => false

def eq : Double → Double → Bool
  | num a, num b => a = b
  | inf s, inf t => s = t
  | _, _ => false

def le (a b : Double) : Bool := lt a b || eq a b

section

variable (a b : ℚ)

@[simp] theorem num_neg : -num a = num (-a) := rfl

@[simp] theorem num_add : num a + num b = num (a + b) := rfl

@[simp] theorem num_sub : num a - num b = num (a - b) := by
  rw [sub_eq_add_neg]
  rfl

@[simp] theorem num_mul : num a * num b = num (a * b) := rfl

theorem num_div (h : b ≠ 0) : num a / num b = num (a / b) := if_neg h

@[simp] theorem num_lt : lt (num a) (num b) = decide (a < b) := rfl

@[simp] theorem num_eq : eq (num a) (num b) = decide (a = b) := rfl

@[simp] theorem num_le : le (num a) (num b) = decide (a ≤ b) := by
  simp [le, le_iff_lt_or_eq]

end

section

variable (x y z : Double)

protected theorem add_assoc : x + y + z = x + (y + z) := by
  change add (add x y) z = add x (add y z)
  cases x with
  | nan => rfl
  | num a =>
    cases y <;> cases z <;> simp [add, add_assoc]
    split_ifs <;> rfl
  | inf s => cases y <;> cases z <;> simp only [add] <;> split_ifs <;> simp_all

protected theorem zero_add : 0 + x = x := by
  change add (num (0 : Nat)) x = x
  cases x <;> simp [add]

protected theorem zero_sub : 0 - x = -x := (-x).zero_add

protected theorem add_comm : x + y = y + x := by
  change add x y = add y x
  cases x <;> cases y <;> simp [add, add_comm]
  rename_i s t
  by_cases h : s = t
  · simp [h]
  · simp [h, Ne.symm h]

protected theorem mul_comm : x * y = y * x := by
  change mul x y = mul y x
  cases x <;> cases y <;> simp [mul, mul_comm, Bool.xor_comm]

protected theorem eq_comm : eq x y = eq y x := by
  cases x <;> cases y <;> simp [eq, eq_comm]

end

instance : Std.Associative fun x y : Double => x + y := ⟨Double.add_assoc⟩

instance : Std.Commutative fun x y : Double => x + y := ⟨Double.add_comm⟩

-- `static_cast<intN_t>`: truncation towards zero, undefined when the result does not fit.
def toInt (width : Nat) : Double → Option Int
  | num q =>
    let n := if q < 0 then ⌈q⌉ else ⌊q⌋
    if -2 ^ (width - 1) ≤ n ∧ n < 2 ^ (width - 1) then some n else none
  | _ => none

theorem toInt_intCast (width : Nat) {n : Int}
    (h : -2 ^ (width - 1) ≤ n ∧ n < 2 ^ (width - 1)) :
    toInt width (num n) = some n := by
  simp [toInt, h]

def truncate (q : ℚ) : Int := if q < 0 then ⌈q⌉ else ⌊q⌋

theorem toInt_num (width : Nat) (q : ℚ) :
    toInt width (num q) =
      if -2 ^ (width - 1) ≤ truncate q ∧ truncate q < 2 ^ (width - 1) then some (truncate q)
      else none := rfl

theorem truncate_mem {q : ℚ} {n : Int} (h : |q| ≤ n) : -n ≤ truncate q ∧ truncate q ≤ n := by
  obtain ⟨hlo, hhi⟩ := abs_le.mp h
  rw [truncate]
  split_ifs with hq
  · have hn : (0 : ℚ) ≤ n := le_trans (abs_nonneg q) h
    refine ⟨?_, Int.ceil_le.mpr (by linarith)⟩
    have hceil : ((-n : Int) : ℚ) ≤ ⌈q⌉ := by
      push_cast
      exact le_trans hlo (Int.le_ceil q)
    exact_mod_cast hceil
  · refine ⟨Int.le_floor.mpr (by push_cast; linarith), ?_⟩
    have hfloor : ((⌊q⌋ : Int) : ℚ) ≤ n := le_trans (Int.floor_le q) hhi
    exact_mod_cast hfloor

theorem abs_sub_truncate (q : ℚ) : |q - truncate q| = Int.fract |q| := by
  rw [truncate]
  split_ifs with hq
  · rw [abs_of_neg hq, Int.fract, Int.floor_neg, abs_of_nonpos (by linarith [Int.le_ceil q])]
    push_cast
    ring
  · rw [abs_of_nonneg (not_lt.mp hq), Int.fract, abs_of_nonneg (by linarith [Int.floor_le q])]

end Double

end Lark.Base
