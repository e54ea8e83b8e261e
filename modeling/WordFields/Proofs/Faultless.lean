import WordFields.Proofs.Layout.Checking
import WordFields.Proofs.Layout.Entries
import WordFields.Proofs.Word.LastWrite

/-!
# Checked operations have no faults

A shift by the width or more, a difference below zero, a mask past the word and a refusal in a form
that cannot refuse each end in a fault, and no operation takes a fault back. The checked operations
never end in one, for any positions and any layout: they have checked what the steps inside them
rely on. What they are asked for they do or refuse, and it is said exactly which.
-/

set_option autoImplicit false

namespace WordFields

open Outcome

variable {s : WordSize}

/-- The last position has none after it. -/
theorem Position.next?_eq_none_iff {p : Position} :
    p.next? = none ↔ p.val = 0xffffffffffffffff := by
  rw [next?, ofNat?_eq_none_iff]
  omega

namespace BitRange

theorem ofBounds_decides (start stop : Position) : (ofBounds start stop).Decides (start < stop) :=
  .of_cases (fun ordered => ⟨_, ofBounds_of_lt ordered⟩)
    (fun unordered => ⟨_, ofBounds_of_not_lt unordered⟩)

theorem ofBounds_stop {start stop : Position} {r : BitRange} (made : ofBounds start stop = .ok r) :
    r.stop = stop := by
  by_cases ordered : start < stop
  · rw [ofBounds_of_lt ordered] at made
    cases made
    rfl
  · rw [ofBounds_of_not_lt ordered] at made
    cases made

theorem single_decides (index : Position) :
    (single index).Decides (index.val ≠ 0xffffffffffffffff) := by
  unfold single
  split
  next stop found =>
    refine .of_cases (fun _ => ⟨_, rfl⟩) (fun last => ?_)
    have none := Position.next?_eq_none_iff.2 (Decidable.not_not.1 last)
    rw [found] at none
    cases none
  next found =>
    refine .of_cases (fun notLast => ?_) (fun _ => ⟨_, rfl⟩)
    exact absurd (Position.next?_eq_none_iff.1 found) notLast

/-- The range of one position is made with a sum that is a position. -/
theorem single_stop {index : Position} {r : BitRange} (made : single index = .ok r) :
    r.stop.val = index.val + 1 := by
  unfold single at made
  split at made
  next stop found =>
    cases made
    exact Position.ofNat?_eq_some_iff.1 found
  next => cases made

theorem ofFirstLast_decides (first last : Position) :
    (ofFirstLast first last).Decides (last.val ≠ 0xffffffffffffffff ∧ first ≤ last) := by
  unfold ofFirstLast
  cases found : last.next? with
  | none =>
    refine .of_cases (fun good => ?_) (fun _ => ⟨_, rfl⟩)
    exact absurd (Position.next?_eq_none_iff.1 found) good.1
  | some stop =>
    have sum : stop.val = last.val + 1 := Position.ofNat?_eq_some_iff.1 found
    have notLast : last.val ≠ 0xffffffffffffffff := by omega
    have ordered : first < stop ↔ first ≤ last := by
      rw [Fin.lt_def, Fin.le_def]
      omega
    have bounds := ofBounds_decides first stop
    exact .of_cases (fun good => bounds.accepts (ordered.2 good.2))
      (fun bad => bounds.refuses fun isOrdered => bad ⟨notLast, ordered.1 isOrdered⟩)

theorem ofFirstLast_stop {first last : Position} {r : BitRange}
    (made : ofFirstLast first last = .ok r) : r.stop.val = last.val + 1 := by
  unfold ofFirstLast at made
  split at made
  next stop found =>
    rw [ofBounds_stop made]
    exact Position.ofNat?_eq_some_iff.1 found
  next => cases made

/-- The length is a difference that does not go below zero. -/
theorem stop_sub_start (r : BitRange) : r.stop.sub (ε := RangeError) r.start = .ok r.length :=
  Position.sub_of_le (Fin.le_of_lt r.start_lt_stop)

/-- The mask is made exactly where it is asked for: for a range within the word. -/
theorem mask_eq_ok_iff (r : BitRange) :
    (∃ mask, r.mask (ε := RangeError) s = .ok mask) ↔ r.stop ≤ s.width := by
  constructor
  · rintro ⟨mask, made⟩
    refine Decidable.not_not.1 fun past => ?_
    rw [BitRange.mask, if_neg past] at made
    cases made
  · exact fun within => ⟨_, r.mask_within within⟩

end BitRange

namespace Word

variable (w : Word s)

theorem getBit_decides (index : Position) : (w.getBit index).Decides (index < s.width) := by
  rw [getBit_eq]
  exact decides_ite _ _ _

theorem putBit_decides (index : Position) (bit : Bool) :
    (w.putBit index bit).Decides (index < s.width) := by
  rw [putBit_eq]
  exact decides_ite _ _ _

theorem slice_decides (r : BitRange) : (w.slice r).Decides (r.stop ≤ s.width) := by
  rw [slice_eq]
  exact decides_ite _ _ _

theorem sliceBetween_decides (start stop : Position) :
    (w.sliceBetween start stop).Decides (start < stop ∧ stop ≤ s.width) := by
  by_cases ordered : start < stop
  · rw [sliceBetween_of_lt w ordered]
    have inner := w.slice_decides ⟨start, stop, ordered⟩
    exact .of_cases (fun good => inner.accepts good.2)
      (fun bad => inner.refuses fun within => bad ⟨ordered, within⟩)
  · rw [sliceBetween_of_not_lt w ordered]
    exact .of_cases (fun good => absurd good.1 ordered) (fun _ => ⟨_, rfl⟩)

theorem signedSlice_decides (r : BitRange) : (w.signedSlice r).Decides (r.stop ≤ s.width) := by
  rw [signedSlice_eq]
  exact decides_ite _ _ _

theorem lowSigned_decides (width : Position) :
    (w.lowSigned width).Decides (0 < width.val ∧ width ≤ s.width) := by
  rw [lowSigned_eq]
  refine .of_cases (fun good => ⟨_, if_neg ?_⟩) (fun bad => ⟨_, if_pos ?_⟩)
  · exact not_or.2 ⟨Nat.ne_of_gt good.1, Fin.not_lt.2 good.2⟩
  · rw [← Fin.not_le, ← Nat.le_zero, ← Nat.not_lt]
    exact Decidable.not_and_iff_or_not.1 bad

/-- A replacement is made exactly where the checked form asks for it. -/
theorem overwrite_eq_ok_iff (r : BitRange) (value : Word s) :
    (∃ out, w.overwrite r value = .ok out) ↔ r.stop ≤ s.width := by
  rw [overwrite_eq]
  by_cases within : r.stop ≤ s.width
  · simp [within]
  · simp [within, stop]

/-- Faults are there to be avoided: a replacement past the word, not asked for first, is one. -/
example : (0 : Word .b8).overwrite ⟨⟨4, by decide⟩, ⟨9, by decide⟩, by decide⟩ 0 =
    .stop (.refused "bit 9 is out of range for a 8-bit word") := by decide

theorem put_decides (r : BitRange) (value : Word s) :
    (w.put r value).Decides (r.stop ≤ s.width ∧ value.bitLength ≤ r.length.val) := by
  rw [put_eq]
  by_cases within : r.stop ≤ s.width
  · rw [if_pos within]
    refine .of_cases (fun good => ⟨_, if_neg (Nat.not_lt.2 good.2)⟩) (fun bad => ⟨_, if_pos ?_⟩)
    exact Nat.not_le.1 fun short => bad ⟨within, short⟩
  · rw [if_neg within]
    exact .of_cases (fun good => absurd good.1 within) (fun _ => ⟨_, rfl⟩)

theorem bitLength_le_bits : w.bitLength ≤ s.bits := (w.bitLength_le_iff s.bits).2 w.isLt

end Word

theorem Field.value_decides (f : Field) (w : Word s) :
    (f.value w).Decides (f.range.stop ≤ s.width) := by
  rw [Field.value_eq]
  exact decides_ite _ _ _

namespace Layout

theorem decode_decides (l : Layout) (w : Word s) :
    (l.decode w).value.Decides
      (s.width = l.width ∧ ∀ e ∈ l.fields.entries, e.2.range.stop ≤ s.width) := by
  by_cases same : s.width = l.width
  · rcases within_or_first_past s.width l.fields.entries with
      within | ⟨before, e, after, split, within, past⟩
    · exact .of_cases (fun _ => ⟨_, (decode_eq_ok_iff same w).2 ⟨within, rfl⟩⟩)
        (fun bad => absurd ⟨same, within⟩ bad)
    · have mem : e ∈ l.fields.entries := by simp [split]
      rw [decode_of_past same w split within past]
      exact .of_cases (fun good => absurd past (Fin.not_lt.2 (good.2 e mem)))
        (fun _ => ⟨_, rfl⟩)
  · rw [decode_of_other_width same]
    exact .of_cases (fun good => absurd good.1 same) (fun _ => ⟨_, rfl⟩)

theorem valueOf_decides (l : Layout) (w : Word s) (name : String) :
    (l.valueOf w name).Decides
      (s.width = l.width ∧ ∀ field ∈ l.get? name, field.range.stop ≤ s.width) := by
  by_cases same : s.width = l.width
  · rw [valueOf_of_width same]
    cases l.get? name with
    | none => exact .of_cases (fun _ => ⟨_, rfl⟩) (fun bad => absurd ⟨same, by simp⟩ bad)
    | some field =>
      refine .of_cases (fun good => ⟨_, if_pos (good.2 field rfl)⟩) (fun bad => ⟨_, if_neg ?_⟩)
      exact fun within => bad ⟨same, by simpa using within⟩
  · rw [valueOf_of_other_width same]
    exact .of_cases (fun good => absurd good.1 same) (fun _ => ⟨_, rfl⟩)

theorem insert_decides (l : Layout) (name : String) (f : Field) :
    (l.insert name f).Decides (f.range.stop ≤ l.width) := by
  unfold insert checkField
  split
  next within => exact .of_cases (fun _ => ⟨_, rfl⟩) (fun past => absurd within past)
  next past => exact .of_cases (fun within => absurd within past) (fun _ => ⟨_, rfl⟩)

theorem validate_decides (l : Layout) : l.validate.value.Decides l.Valid := by
  rw [validate_value]
  exact .of_cases (fun valid => ⟨_, check_eq_ok_iff.2 valid⟩) check_of_not_valid

end Layout

/-- No checked operation ends in a fault, whatever positions, words, values and layouts it is given:
it has checked what its shifts, differences, masks and demanding steps rely on, and refuses all
else. The end of a range is the exact sum, its length the exact difference, and the bits of a value
are no more than the word has. -/
theorem checked_operations_decide (w value : Word s) (bit : Bool) (index start stop : Position)
    (r : BitRange) (f : Field) (l : Layout) (name : String) :
    ((w.getBit index).Decides (index < s.width) ∧
      (w.putBit index bit).Decides (index < s.width) ∧
      (w.slice r).Decides (r.stop ≤ s.width) ∧
      (w.sliceBetween start stop).Decides (start < stop ∧ stop ≤ s.width) ∧
      (w.signedSlice r).Decides (r.stop ≤ s.width) ∧
      (w.lowSigned index).Decides (0 < index.val ∧ index ≤ s.width) ∧
      (w.put r value).Decides (r.stop ≤ s.width ∧ value.bitLength ≤ r.length.val)) ∧
    ((BitRange.ofBounds start stop).Decides (start < stop) ∧
      (BitRange.ofPair (start, stop)).Decides (start < stop) ∧
      (BitRange.single index).Decides (index.val ≠ 0xffffffffffffffff) ∧
      (BitRange.ofFirstLast start stop).Decides (stop.val ≠ 0xffffffffffffffff ∧ start ≤ stop)) ∧
    ((f.value w).Decides (f.range.stop ≤ s.width) ∧
      (l.decode w).value.Decides
        (s.width = l.width ∧ ∀ e ∈ l.fields.entries, e.2.range.stop ≤ s.width) ∧
      (l.valueOf w name).Decides
        (s.width = l.width ∧ ∀ field ∈ l.get? name, field.range.stop ≤ s.width) ∧
      (l.insert name f).Decides (f.range.stop ≤ l.width) ∧
      l.validate.value.Decides l.Valid) ∧
    ((∀ made, BitRange.single index = .ok made → made.stop.val = index.val + 1) ∧
      (∀ made, BitRange.ofFirstLast start stop = .ok made → made.stop.val = stop.val + 1) ∧
      r.stop.sub (ε := RangeError) r.start = .ok r.length ∧
      w.bitLength ≤ s.bits ∧
      ((∃ mask, r.mask (ε := RangeError) s = .ok mask) ↔ r.stop ≤ s.width) ∧
      ((∃ out, w.overwrite r value = .ok out) ↔ r.stop ≤ s.width)) := by
  exact ⟨
    ⟨w.getBit_decides index, w.putBit_decides index bit, w.slice_decides r,
      w.sliceBetween_decides start stop, w.signedSlice_decides r, w.lowSigned_decides index,
      w.put_decides r value⟩,
    ⟨BitRange.ofBounds_decides start stop, BitRange.ofBounds_decides start stop,
      BitRange.single_decides index, BitRange.ofFirstLast_decides start stop⟩,
    ⟨f.value_decides w, l.decode_decides w, l.valueOf_decides w name, l.insert_decides name f,
      l.validate_decides⟩,
    ⟨fun _ => BitRange.single_stop, fun _ => BitRange.ofFirstLast_stop, r.stop_sub_start,
      w.bitLength_le_bits, r.mask_eq_ok_iff, w.overwrite_eq_ok_iff r value⟩⟩

end WordFields
