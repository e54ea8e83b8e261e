import WordFields.Proofs.Faultless
import WordFields.Proofs.Text.Messages
import WordFields.Word.Run

/-!
# All forms of an operation agree

A demanding form gives the values of the checked one. It takes no refusal, and where the checked
form refuses it stops with the message of the error, from which the error can be told. Positions
known beforehand need no check, and the mask that is made for them is the same one. Of two bounds it
is first asked whether they are in order, and only then whether the word has them. A plain
replacement does what a checked one does that is accepted, and is stopped by the range alone.
-/

set_option autoImplicit false

namespace WordFields

variable {s : WordSize} {α β : Type}

/-- The demanding form of a checked operation: it has the same values, stops with the message of an
error exactly where the checked form refuses with this error, and ends in no other way. -/
structure DemandingForm (demanding checked : Outcome RangeError α) : Prop where
  value : ∀ a, demanding = .ok a ↔ checked = .ok a
  refusal : ∀ e : RangeError, demanding = .stop (.refused e.message) ↔ checked = .refuse e
  ends : (∃ a, demanding = .ok a) ∨ ∃ e : RangeError, demanding = .stop (.refused e.message)

/-- An operation that never faults on its own stops, when it is demanded, for its refusals only. -/
theorem Outcome.Decides.demandingForm {checked : Outcome RangeError α} {good : Prop}
    (decides : checked.Decides good) : DemandingForm (Form.demanding.of checked) checked where
  value a := Outcome.demand_eq_ok_iff RangeError.message checked a
  refusal e := by
    cases checked with
    | ok a => exact ⟨nofun, nofun⟩
    | error failure =>
      cases failure with
      | refusal refused =>
        constructor
        · intro stopped
          have sameText : refused.message = e.message := by
            simpa [Form.of, Outcome.demand, Outcome.stop] using stopped
          rw [RangeError.message_injective sameText]
          rfl
        · intro same
          cases same
          rfl
      | fault fault => exact absurd rfl (decides.faultless fault)
  ends := by
    cases checked with
    | ok a => exact .inl ⟨a, rfl⟩
    | error failure =>
      cases failure with
      | refusal refused => exact .inr ⟨refused, rfl⟩
      | fault fault => exact absurd rfl (decides.faultless fault)

/-- A sequence is demanded step by step. -/
theorem Form.demanding_bind (first : Outcome RangeError α) (next : α → Outcome RangeError β) :
    Form.demanding.of (first >>= next) =
      Form.demanding.of first >>= fun a => Form.demanding.of (next a) := by
  rcases first with (_ | _) | _
  · rfl
  · rfl
  · rfl

namespace Word

theorem getBitAt_eq_getBit (w : Word s) {index : Position} (below : index < s.width) :
    w.getBitAt index below = w.getBit index := by
  rw [getBit, if_pos below]
  rfl

/-- The mask made for bounds known beforehand is that of their range. -/
theorem sliceAt_eq_slice (w : Word s) {start stop : Position} (ordered : start < stop)
    (within : stop ≤ s.width) :
    w.sliceAt start stop ordered within = w.slice ⟨start, stop, ordered⟩ := by
  let r : BitRange := ⟨start, stop, ordered⟩
  have length : stop.sub (ε := RangeError) start = .ok r.length := r.stop_sub_start
  have mask : (do let unused ← s.width.sub r.length; (ones s).shr unused) =
      (.ok (r.maskWord s) : Outcome RangeError (Word s)) := by
    rw [← r.mask_within within, BitRange.mask, if_pos within]
  have shifted := shr_of_lt (ε := RangeError) w (start_lt_width (r := r) within)
  rw [sliceAt, length, ok_bind, ← bind_assoc, mask, ok_bind, shifted, ok_bind, slice,
    BitRange.within, if_pos within, ok_bind, shifted, ok_bind, r.mask_within within, ok_bind]

/-- A plain replacement is stopped exactly by a range past the word. -/
theorem overwrite_stops_iff (w value : Word s) (r : BitRange) :
    (∃ fault, w.overwrite r value = .stop fault) ↔ s.width < r.stop := by
  rw [overwrite_eq]
  by_cases within : r.stop ≤ s.width
  · simp [within, Outcome.stop, Fin.not_lt.2 within]
  · simp [within, Fin.not_le.1 within]

/-- What a checked replacement gives is what a plain one gives. -/
theorem overwrite_of_put {w value out : Word s} {r : BitRange}
    (accepted : w.put r value = .ok out) : w.overwrite r value = .ok out := by
  unfold put at accepted
  obtain ⟨-, -, written⟩ := bind_eq_ok_iff.1 accepted
  split at written
  · cases written
  · exact written

/-- Every operation that reads or writes at given positions is demanded with the same values, and
with the message of exactly the error that its checked form refuses with. Two bounds are demanded
like a range made of them: reversed ones are refused as such, wherever they are, and others give
what their range gives. A plain replacement stops for a range past the word and for nothing else,
and agrees with a checked one that is accepted. Positions known to be within the word give what the
checked forms give, without a fault. -/
theorem every_form_agrees (w value : Word s) (bit : Bool) (index start stop : Position)
    (r : BitRange) :
    (DemandingForm (Form.demanding.of (w.getBit index)) (w.getBit index) ∧
      DemandingForm (Form.demanding.of (w.slice r)) (w.slice r) ∧
      DemandingForm (Form.demanding.of (w.putBit index bit)) (w.putBit index bit) ∧
      DemandingForm (Form.demanding.of (w.lowSigned index)) (w.lowSigned index) ∧
      DemandingForm (Form.demanding.of (w.signedSlice r)) (w.signedSlice r)) ∧
    (DemandingForm (Form.demanding.of (w.sliceBetween start stop)) (w.sliceBetween start stop) ∧
      (Form.demanding.of (w.sliceBetween start stop) =
        Form.demanding.of (BitRange.ofBounds start stop) >>= fun made =>
          Form.demanding.of (w.slice made)) ∧
      (stop ≤ start → w.sliceBetween start stop = .refuse (.reversed start stop)) ∧
      ∀ ordered : start < stop, w.sliceBetween start stop = w.slice ⟨start, stop, ordered⟩) ∧
    (((∃ fault, w.overwrite r value = .stop fault) ↔ s.width < r.stop) ∧
      ((∃ out, w.overwrite r value = .ok out) ↔ r.stop ≤ s.width) ∧
      ∀ out, w.put r value = .ok out → w.overwrite r value = .ok out) ∧
    (∀ below : index < s.width, ∃ b, w.getBitAt index below = .ok b ∧ w.getBit index = .ok b) ∧
    ∀ (ordered : start < stop) (within : stop ≤ s.width), ∃ u,
      w.sliceAt start stop ordered within = .ok u ∧ w.sliceBetween start stop = .ok u := by
  refine ⟨⟨?_, ?_, ?_, ?_, ?_⟩, ⟨?_, ?_, ?_, ?_⟩, ⟨?_, ?_, ?_⟩, fun below => ?_,
    fun ordered within => ?_⟩
  · exact (w.getBit_decides index).demandingForm
  · exact (w.slice_decides r).demandingForm
  · exact (w.putBit_decides index bit).demandingForm
  · exact (w.lowSigned_decides index).demandingForm
  · exact (w.signedSlice_decides r).demandingForm
  · exact (w.sliceBetween_decides start stop).demandingForm
  · exact Form.demanding_bind _ _
  · intro unordered
    exact sliceBetween_of_not_lt w (Fin.not_lt.2 unordered)
  · intro ordered
    exact sliceBetween_of_lt w ordered
  · exact w.overwrite_stops_iff value r
  · exact w.overwrite_eq_ok_iff r value
  · intro out accepted
    exact overwrite_of_put accepted
  · refine ⟨w.getLsbD index.val, ?_, ?_⟩
    · rw [getBitAt_eq_getBit, getBit_eq, if_pos below]
    · rw [getBit_eq, if_pos below]
  · refine ⟨w.part ⟨start, stop, ordered⟩, ?_, ?_⟩
    · rw [sliceAt_eq_slice, slice_within w within]
    · rw [sliceBetween_of_lt w ordered, slice_within w within]

/-- Of the byte `0xab` the bits from 4 on are 10 in every form. Two positions past the byte that are
reversed are told that they are reversed, and in order that they are past the byte. -/
theorem byte_in_every_form :
    let w : Word .b8 := 0xab#8
    let four : Position := ⟨4, by decide⟩
    let eight : Position := ⟨8, by decide⟩
    let far : Position := ⟨0xffffffffffffffff, by decide⟩
    let upper : BitRange := ⟨four, eight, by decide⟩
    (∃ u, w.sliceAt four eight (by decide) (by decide) = .ok u ∧
      w.sliceBetween four eight = .ok u ∧ Form.demanding.of (w.slice upper) = .ok u ∧ u = 0x0a#8) ∧
    w.sliceBetween far eight = .refuse (.reversed far eight) ∧
    Form.demanding.of (w.sliceBetween far eight) =
      .stop (.refused "invalid bit range 18446744073709551615..8, start must be below end") ∧
    w.sliceBetween eight far = .refuse (.outside far WordSize.b8.width) ∧
    (∃ fault, w.overwrite ⟨eight, far, by decide⟩ 0 = .stop fault) := by
  intro w four eight far upper
  obtain ⟨⟨-, demanded, -⟩, ⟨-, -, -, ordered⟩, -, -, known⟩ :=
    every_form_agrees w 0 false four four eight upper
  obtain ⟨-, ⟨between, -, reversed, -⟩, -⟩ := every_form_agrees w 0 false four far eight upper
  obtain ⟨-, ⟨-, -, -, past⟩, ⟨stops, -⟩, -⟩ :=
    every_form_agrees w 0 false four eight far ⟨eight, far, by decide⟩
  have isReversed := reversed (by decide)
  have text : (RangeError.reversed far eight).message =
      "invalid bit range 18446744073709551615..8, start must be below end" := by decide
  refine ⟨?_, isReversed, text ▸ (between.refusal _).2 isReversed, ?_, stops.2 (by decide)⟩
  · obtain ⟨u, direct, checked⟩ := known (by decide) (by decide)
    refine ⟨u, direct, checked, ?_, ?_⟩
    · exact (demanded.value u).2 ((ordered (by decide)).symm.trans checked)
    · exact Except.ok.inj (checked.symm.trans (by decide))
  · rw [past (by decide)]
    decide

end Word

end WordFields
