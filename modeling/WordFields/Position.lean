import WordFields.Failure

/-!
# Bit positions

Positions, lengths and widths are 64-bit numbers. Sums and differences are computed only where they
stay in that range; outside it they are a fault and never wrap.
-/

set_option autoImplicit false

namespace WordFields

abbrev Position := Fin 0x10000000000000000

namespace Position

/-- The position `n`, if it is one. -/
def ofNat? (n : Nat) : Option Position :=
  if h : n < 0x10000000000000000 then some ⟨n, h⟩ else none

/-- The position after `p`, if there is one. -/
def next? (p : Position) : Option Position := ofNat? (p.val + 1)

def sub {ε : Type} (a b : Position) : Outcome ε Position :=
  if b ≤ a then .ok ⟨a.val - b.val, by omega⟩ else .stop .positionOverflow

theorem ofNat?_eq_some_iff {n : Nat} {p : Position} : ofNat? n = some p ↔ p.val = n := by
  unfold ofNat?
  split
  · simp only [Option.some.injEq, Fin.ext_iff]
    exact eq_comm
  · simp only [reduceCtorEq, false_iff]
    omega

theorem ofNat?_eq_none_iff {n : Nat} : ofNat? n = none ↔ 0x10000000000000000 ≤ n := by
  unfold ofNat?
  split <;> simp <;> omega

theorem sub_of_le {ε : Type} {a b : Position} (h : b ≤ a) :
    sub (ε := ε) a b = .ok ⟨a.val - b.val, by omega⟩ := by
  simp [sub, h]

end Position

end WordFields
