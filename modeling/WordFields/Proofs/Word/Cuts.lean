import WordFields.Proofs.Word.Slicing

/-!
# Slices between cuts

Cuts in increasing order divide the slice from the first to the last of them into pieces. Each
piece, moved up to where it stands above the first cut, has the bits of the whole between its two
cuts and no others, so the pieces have no bit in common and together they are the whole. A slice of
a slice is a slice of the word, with the positions counted from the start of the outer one.
-/

set_option autoImplicit false

namespace WordFields

variable {s : WordSize}

/-- The range whose positions are those of `inner`, counted from the start of `r`. -/
def BitRange.nested (r inner : BitRange) (fits : inner.stop ≤ r.length) : BitRange where
  start := ⟨r.start.val + inner.start.val, by
    have total := r.start_add_length
    have inside := Fin.lt_of_lt_of_le inner.start_lt_stop fits
    omega⟩
  stop := ⟨r.start.val + inner.stop.val, by
    have total := r.start_add_length
    have inside := Fin.le_def.1 fits
    omega⟩
  start_lt_stop := Nat.add_lt_add_left inner.start_lt_stop r.start.val

/-- Each cut with the next one. -/
def consecutive (cuts : List Position) : List (Position × Position) := cuts.zip cuts.tail

namespace Word

/-- The slice between two cuts, moved up to where it stands above `base`. -/
def pieceAbove (w : Word s) (base : Position) (cut : Position × Position) :
    Outcome RangeError (Word s) := do
  let piece ← w.sliceBetween cut.1 cut.2
  let up ← cut.1.sub base
  piece.shl up

/-- A piece is made without a fault, and its bits are those of the word between the two cuts. -/
theorem pieceAbove_bits (w : Word s) {base start stop : Position} (above : base ≤ start)
    (ordered : start < stop) (within : stop ≤ s.width) :
    ∃ piece, w.pieceAbove base (start, stop) = .ok piece ∧ ∀ k,
      piece.getLsbD k = (decide (start.val ≤ base.val + k ∧ base.val + k < stop.val) &&
        w.getLsbD (base.val + k)) := by
  have inWord : start < s.width := Fin.lt_of_lt_of_le ordered within
  let up : Position := ⟨start.val - base.val, by omega⟩
  have shiftable : up < s.width := Nat.lt_of_le_of_lt (Nat.sub_le _ _) inWord
  let r : BitRange := ⟨start, stop, ordered⟩
  refine ⟨w.part r <<< up.val, ?_, fun k => ?_⟩
  · rw [pieceAbove, sliceBetween_of_lt w ordered, slice_within w within, ok_bind,
      Position.sub_of_le above, ok_bind, shl_of_lt _ shiftable]
  · have bounds : stop.val ≤ s.bits := within
    have lowest : base.val ≤ start.val := above
    have length : r.length.val = stop.val - start.val := rfl
    rw [BitVec.getLsbD_shiftLeft, part_bit w within, length]
    show (decide (k < s.bits) && !decide (k < start.val - base.val) &&
      (decide (k - (start.val - base.val) < stop.val - start.val) &&
        w.getLsbD (start.val + (k - (start.val - base.val))))) = _
    by_cases inside : start.val ≤ base.val + k ∧ base.val + k < stop.val
    · have place : start.val + (k - (start.val - base.val)) = base.val + k := by omega
      simp [inside, place, show k < s.bits by omega, show ¬ k < start.val - base.val by omega,
        show k - (start.val - base.val) < stop.val - start.val by omega]
    · rw [decide_eq_false inside, Bool.false_and]
      by_cases below : k < start.val - base.val
      · simp [below]
      · simp [show ¬ k - (start.val - base.val) < stop.val - start.val by omega]

/-- The bits of all these words. -/
def joined (words : List (Word s)) : Word s := words.foldr (· ||| ·) 0

theorem joined_bit (words : List (Word s)) (k : Nat) :
    (joined words).getLsbD k = words.any fun word => word.getLsbD k := by
  induction words with
  | nil => exact BitVec.getLsbD_zero
  | cons first rest ih =>
    rw [joined, List.foldr_cons, ← joined, BitVec.getLsbD_or, ih, List.any_cons]

/-- The pieces are the bits of the word from `first` to `last`, where they stand above `base`, and
no two of them have a bit in common. -/
structure Assembles (w : Word s) (base first last : Position) (pieces : List (Word s)) : Prop where
  bits : ∀ k, (joined pieces).getLsbD k =
    (decide (first.val ≤ base.val + k ∧ base.val + k < last.val) && w.getLsbD (base.val + k))
  apart : pieces.Pairwise fun p q => p &&& q = 0

variable {w : Word s} {base start middle stop : Position}

/-- No bit of a piece is below its first cut. -/
theorem Assembles.clear_below {pieces : List (Word s)}
    (assembles : w.Assembles base start stop pieces) {piece : Word s} (mem : piece ∈ pieces)
    {k : Nat} (below : base.val + k < start.val) :
    piece.getLsbD k = false := by
  have whole := assembles.bits k
  rw [joined_bit, decide_eq_false (by omega), Bool.false_and, List.any_eq_false] at whole
  exact eq_false_of_ne_true (whole piece mem)

/-- A piece in front of others that start where it stops goes together with them. -/
theorem Assembles.cons {piece : Word s} {others : List (Word s)} (ordered : start < middle)
    (behind : middle < stop)
    (bits : ∀ k, piece.getLsbD k =
      (decide (start.val ≤ base.val + k ∧ base.val + k < middle.val) && w.getLsbD (base.val + k)))
    (assembles : w.Assembles base middle stop others) :
    w.Assembles base start stop (piece :: others) where
  bits k := by
    rw [Fin.lt_def] at ordered behind
    rw [joined, List.foldr_cons, ← joined, BitVec.getLsbD_or, bits k, assembles.bits k,
      ← Bool.and_or_distrib_right, ← Bool.decide_or]
    congr 2
    rw [eq_iff_iff]
    omega
  apart := by
    refine List.pairwise_cons.2 ⟨fun other mem => ?_, assembles.apart⟩
    refine BitVec.eq_of_getLsbD_eq fun k _ => ?_
    rw [BitVec.getLsbD_and, bits k]
    by_cases below : base.val + k < middle.val
    · rw [assembles.clear_below mem below, Bool.and_false]
      exact BitVec.getLsbD_zero.symm
    · rw [decide_eq_false (by omega), Bool.false_and, Bool.false_and]
      exact BitVec.getLsbD_zero.symm

/-- All pieces between cuts are made, and they assemble what is between the first and the last cut.
By induction on the cuts between these: the piece up to the next cut goes in front. -/
theorem pieces_assemble (w : Word s) {base first last : Position} (cuts : List Position)
    (above : base ≤ first) (ordered : (first :: cuts ++ [last]).Pairwise (· < ·))
    (within : last ≤ s.width) :
    ∃ pieces, (consecutive (first :: cuts ++ [last])).mapM (w.pieceAbove base) = .ok pieces ∧
      w.Assembles base first last pieces := by
  induction cuts generalizing first with
  | nil =>
    have pair : first < last := by simpa using ordered
    obtain ⟨piece, made, bits⟩ := w.pieceAbove_bits above pair within
    refine ⟨[piece], ?_, fun k => ?_, List.pairwise_singleton _ _⟩
    · simp [consecutive, made]
    · rw [joined_bit, List.any_cons, List.any_nil, Bool.or_false, bits k]
  | cons next rest ih =>
    obtain ⟨smallest, orderedRest⟩ := List.pairwise_cons.1 ordered
    have pair : first < next := smallest next List.mem_cons_self
    have behind : next < last := (List.pairwise_cons.1 orderedRest).1 last (by simp)
    obtain ⟨others, madeOthers, assembles⟩ :=
      ih (Fin.le_trans above (Fin.le_of_lt pair)) orderedRest
    obtain ⟨piece, made, bits⟩ :=
      w.pieceAbove_bits above pair (Fin.le_trans (Fin.le_of_lt behind) within)
    refine ⟨piece :: others, ?_, assembles.cons pair behind bits⟩
    show ((first, next) :: consecutive (next :: rest ++ [last])).mapM (w.pieceAbove base) = _
    rw [List.mapM_cons, made, ok_bind, madeOthers, ok_bind]
    rfl

theorem nested_within {r inner : BitRange} (within : r.stop ≤ s.width)
    (fits : inner.stop ≤ r.length) : (r.nested inner fits).stop ≤ s.width := by
  have total := r.start_add_length
  have inside : inner.stop.val ≤ r.length.val := fits
  have bounds : r.stop.val ≤ s.bits := within
  show r.start.val + inner.stop.val ≤ s.bits
  omega

/-- A slice of a slice takes its bits from where they are in the word. -/
theorem part_part (w : Word s) {r inner : BitRange} (within : r.stop ≤ s.width)
    (fits : inner.stop ≤ r.length) : (w.part r).part inner = w.part (r.nested inner fits) := by
  have innerWithin : inner.stop ≤ s.width := Fin.le_trans fits (BitRange.length_le within)
  refine BitVec.eq_of_getLsbD_eq fun k _ => ?_
  rw [part_bit _ innerWithin, part_bit w within, part_bit w (nested_within within fits)]
  have length : (r.nested inner fits).length = inner.length :=
    Fin.ext (Nat.add_sub_add_left r.start.val inner.stop.val inner.start.val)
  have place : (r.nested inner fits).start.val + k = r.start.val + (inner.start.val + k) :=
    Nat.add_assoc _ _ _
  rw [length, place]
  by_cases inRange : k < inner.length.val
  · have total := inner.start_add_length
    have inside : inner.stop.val ≤ r.length.val := fits
    rw [decide_eq_true (by omega : inner.start.val + k < r.length.val), Bool.true_and]
  · simp [inRange]

/-- Two or more cuts in increasing order, all within the word, divide the slice from the first to
the last: all slices between neighbouring cuts are there, and moved up to where they stand above the
first cut they have no bit in common and are together the whole. A slice of a slice is the slice of
the word at the same positions, counted from the start of the outer one. -/
theorem slices_join_and_nest (w : Word s) :
    (∀ (first last : Position) (between : List Position),
      (first :: between ++ [last]).Pairwise (· < ·) → last ≤ s.width →
      ∃ whole pieces, w.sliceBetween first last = .ok whole ∧
        (consecutive (first :: between ++ [last])).mapM (w.pieceAbove first) = .ok pieces ∧
        whole = joined pieces ∧ pieces.Pairwise fun p q => p &&& q = 0) ∧
    ∀ (r inner : BitRange) (fits : inner.stop ≤ r.length), r.stop ≤ s.width →
      ∃ outer u, w.slice r = .ok outer ∧ outer.slice inner = .ok u ∧
        w.slice (r.nested inner fits) = .ok u := by
  refine ⟨fun first last between ordered within => ?_, fun r inner fits within => ?_⟩
  · have pair : first < last := (List.pairwise_cons.1 ordered).1 last (by simp)
    obtain ⟨pieces, made, assembles⟩ :=
      w.pieces_assemble between (Fin.le_refl first) ordered within
    refine ⟨w.part ⟨first, last, pair⟩, pieces, ?_, made, ?_, assembles.apart⟩
    · rw [sliceBetween_of_lt w pair, slice_within w within]
    refine BitVec.eq_of_getLsbD_eq fun k _ => ?_
    have inRange : k < (BitRange.mk first last pair).length.val ↔
        first.val ≤ first.val + k ∧ first.val + k < last.val := by
      have total := (BitRange.mk first last pair).start_add_length
      dsimp only at total
      omega
    rw [assembles.bits k, part_bit w within, decide_eq_decide.2 inRange]
  · have innerWithin : inner.stop ≤ s.width := Fin.le_trans fits (BitRange.length_le within)
    refine ⟨w.part r, w.part (r.nested inner fits), slice_within w within, ?_,
      slice_within w (nested_within within fits)⟩
    rw [slice_within _ innerWithin, part_part w within fits]

/-- The four bytes of `0xdeadbeef`, cut at 0, 8, 16, 24 and 32, are moved up and joined again, and
the upper nibble of its second byte is the one that stands from 12 on. -/
theorem bytes_joined :
    let w : Word .b32 := 0xdeadbeef#32
    let cuts : List Position := [⟨8, by decide⟩, ⟨16, by decide⟩, ⟨24, by decide⟩]
    let all : List Position := ⟨0, by decide⟩ :: cuts ++ [⟨32, by decide⟩]
    let second : BitRange := ⟨⟨8, by decide⟩, ⟨16, by decide⟩, by decide⟩
    let upper : BitRange := ⟨⟨4, by decide⟩, ⟨8, by decide⟩, by decide⟩
    all.Pairwise (· < ·) ∧ upper.stop ≤ second.length ∧
      (∃ pieces, (consecutive all).mapM (w.pieceAbove ⟨0, by decide⟩) = .ok pieces ∧
        joined pieces = w ∧ pieces.Pairwise fun p q => p &&& q = 0) ∧
      ∃ outer u, w.slice second = .ok outer ∧ outer.slice upper = .ok u ∧ u = 0xb#32 := by
  intro w cuts all second upper
  have ordered : all.Pairwise (· < ·) := by decide
  have fits : upper.stop ≤ second.length := by decide
  obtain ⟨join, nest⟩ := slices_join_and_nest w
  refine ⟨ordered, fits, ?_, ?_⟩
  · obtain ⟨whole, pieces, sliced, made, together, apart⟩ :=
      join ⟨0, by decide⟩ ⟨32, by decide⟩ cuts ordered (by decide)
    have isWord : whole = w := Except.ok.inj (sliced.symm.trans (slice_whole w))
    exact ⟨pieces, made, together.symm.trans isWord, apart⟩
  · obtain ⟨outer, u, taken, inside, direct⟩ := nest second upper (by decide) (by decide)
    exact ⟨outer, u, taken, inside, Except.ok.inj (direct.symm.trans (by decide))⟩

end Word

end WordFields
