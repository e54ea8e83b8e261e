import WordFields.Proofs.Toml.Steps

/-!
# What is read does not depend on the lines behind it

A number or a date is found on one line: what stands behind the newline does not matter, and the
newline is not taken. Arrays, inline tables and keys end in a mark or a word, so none of them takes
the last newline of a text either. Behind a text that ends in a newline more lines can therefore be
written, and its statements are read as before, then those of the lines behind it.
-/

set_option autoImplicit false

namespace WordFields.Toml

/-- The two lists go alike up to a newline. -/
inductive SameLine : List Token → List Token → Prop
  | newline (ts us : List Token) : SameLine (.newline :: ts) (.newline :: us)
  | cons (t : Token) {ts us : List Token} (same : SameLine ts us) : SameLine (t :: ts) (t :: us)

/-- The first `n` tokens are there, and none of them is a newline. -/
inductive Inline : List Token → Nat → Prop
  | none (ts : List Token) : Inline ts 0
  | token {t : Token} (noLine : t ≠ .newline) {ts : List Token} {n : Nat} (rest : Inline ts n) :
      Inline (t :: ts) (n + 1)

namespace Inline

variable {ts us : List Token} {m n : Nat}

theorem append (first : Inline ts m) (rest : Inline (ts.drop m) n) : Inline ts (m + n) := by
  induction first with
  | none => rwa [Nat.zero_add]
  | token noLine _ ih =>
    rw [Nat.add_right_comm]
    exact .token noLine (ih rest)

theorem drop (inline : Inline ts n) (same : SameLine ts us) : SameLine (ts.drop n) (us.drop n) := by
  induction inline generalizing us with
  | none => exact same
  | token noLine _ ih =>
    cases same with
    | newline => exact absurd rfl noLine
    | cons _ same => exact ih same

theorem take (inline : Inline ts n) (same : SameLine ts us) : ts.take n = us.take n := by
  induction inline generalizing us with
  | none => rfl
  | token noLine _ ih =>
    cases same with
    | newline => exact absurd rfl noLine
    | cons _ same => exact congrArg (List.cons _) (ih same)

end Inline

section Scalars

variable {ts us : List Token} {node : Node} {n : Nat}

theorem exponent_line (same : SameLine ts us) (text : List Char) :
    exponent text ts = exponent text us := by
  cases same with
  | newline => rfl
  | cons t same =>
    cases t with
    | plus =>
      cases same with
      | newline => rfl
      | cons t same => cases t <;> rfl
    | _ => rfl

theorem float_line (same : SameLine ts us) (text : List Char) (places : Option (List Char)) :
    float text places ts = float text places us := by
  simp only [float, exponent_line same]

theorem number_line (same : SameLine ts us) (text : List Char) :
    number text ts = number text us := by
  unfold number
  rw [float_line same]
  cases same with
  | newline => rfl
  | cons t same =>
    cases t with
    | dot =>
      cases same with
      | newline => rfl
      | cons t same =>
        cases t with
        | word places => simp only [float_line same]
        | _ => rfl
    | _ => rfl

theorem exponent_inline {text : List Char} {power : Int}
    (read : exponent text ts = some (power, n)) : Inline ts n := by
  unfold exponent at read
  split at read
  next =>
    cases read
    exact .none ts
  next =>
    split at read
    next => cases read
    next =>
      split at read
      next =>
        split at read
        next =>
          obtain ⟨digits, _, read⟩ := Option.bind_eq_some_iff.1 read
          dsimp only at read
          split at read
          next =>
            cases read
            exact .token (by simp) (.token (by simp) (.none _))
          next => cases read
        next => cases read
      next =>
        obtain ⟨digits, _, read⟩ := Option.bind_eq_some_iff.1 read
        dsimp only at read
        split at read
        next =>
          cases read
          exact .none ts
        next => cases read

theorem float_inline {text : List Char} {places : Option (List Char)}
    (read : float text places ts = some (node, n)) : Inline ts n := by
  unfold float at read
  generalize splitMinus text = parts at read
  obtain ⟨digits, _, read⟩ := Option.bind_eq_some_iff.1 read
  have behind : ∀ decimals : List Char × List Char,
      (do
        let power ← exponent decimals.2 ts
        let x ← Binary64.ofDecimal parts.1 (digitsValue 10 (digits.1 ++ decimals.1))
          (power.1 - decimals.1.length)
        some (Node.float x, power.2)) = some (node, n) → Inline ts n := by
    intro decimals read
    obtain ⟨⟨power, used⟩, isPower, read⟩ := Option.bind_eq_some_iff.1 read
    obtain ⟨x, _, read⟩ := Option.bind_eq_some_iff.1 read
    cases read
    exact exponent_inline isPower
  cases places with
  | none => exact behind ([], digits.2) read
  | some places =>
    dsimp only at read
    split at read
    next =>
      obtain ⟨decimals, _, read⟩ := Option.bind_eq_some_iff.1 read
      exact behind decimals read
    next => cases read

theorem number_inline {text : List Char} (read : number text ts = some (node, n)) :
    Inline ts n := by
  have plain : ∀ {integer : Option Int},
      (do
        let n ← integer
        some (Node.integer n, 0)) = some (node, n) → Inline ts n := by
    intro integer read
    obtain ⟨_, _, same⟩ := Option.bind_eq_some_iff.1 read
    cases same
    exact .none ts
  unfold number at read
  split at read
  next => exact plain read
  next => exact plain read
  next => exact plain read
  next =>
    split at read
    next => exact float_inline read
    next =>
      split at read
      next =>
        obtain ⟨⟨value, used⟩, isFloat, same⟩ := Option.bind_eq_some_iff.1 read
        cases same
        exact .token (by simp) (.token (by simp) (float_inline isFloat))
      next => cases read
      next =>
        split at read
        next =>
          cases read
          exact .none ts
        next =>
          split at read
          next =>
            cases read
            exact .none ts
          next =>
            split at read
            next =>
              cases read
              exact .none ts
            next => exact plain read

theorem optionalPart_line {mark : Token} (noLine : mark ≠ .newline) (same : SameLine ts us) :
    optionalPart mark ts = optionalPart mark us := by
  cases same with
  | newline => simp [optionalPart, noLine.symm]
  | cons t same =>
    cases same with
    | newline => rfl
    | cons t same => cases t <;> rfl

theorem optionalPart_inline {mark : Token} (noLine : mark ≠ .newline)
    (read : optionalPart mark ts = some n) : Inline ts n := by
  unfold optionalPart at read
  split at read
  next =>
    cases read
    exact .none _
  next =>
    split at read
    next isMark =>
      split at read
      next =>
        cases read
        exact .token (fun same => noLine (isMark.symm.trans same)) (.token (by simp) (.none _))
      next => cases read
    next =>
      cases read
      exact .none _

theorem timeTail_line (same : SameLine ts us) : timeTail ts = timeTail us := by
  -- a word, a colon and a word, and behind them the optional parts
  cases same with
  | newline => rfl
  | cons first same =>
    cases same with
    | newline => cases first <;> rfl
    | cons second same =>
      cases same with
      | newline => cases first <;> cases second <;> rfl
      | @cons third ts us same =>
        cases first <;> try rfl
        cases second <;> try rfl
        cases third <;> try rfl
        simp only [timeTail, Option.bind_eq_bind]
        rw [← optionalPart_line (by decide) same]
        refine Option.bind_congr fun fraction isFraction => ?_
        have toFraction := optionalPart_inline (by decide) isFraction
        have behindFraction := toFraction.drop same
        rw [← optionalPart_line (by decide) behindFraction]
        refine Option.bind_congr fun offset isOffset => ?_
        have toOffset := toFraction.append (optionalPart_inline (by decide) isOffset)
        rw [← optionalPart_line (by decide) (toOffset.drop same)]

theorem timeTail_inline (read : timeTail ts = some n) : Inline ts n := by
  unfold timeTail at read
  split at read
  next rest =>
    obtain ⟨fraction, isFraction, read⟩ := Option.bind_eq_some_iff.1 read
    obtain ⟨offset, isOffset, read⟩ := Option.bind_eq_some_iff.1 read
    obtain ⟨minutes, isMinutes, read⟩ := Option.bind_eq_some_iff.1 read
    cases read
    have parts := ((optionalPart_inline (by decide) isFraction).append
      (optionalPart_inline (by decide) isOffset)).append (optionalPart_inline (by decide) isMinutes)
    have taken : 3 + fraction + offset + minutes = fraction + offset + minutes + 1 + 1 + 1 := by
      omega
    rw [taken]
    exact .token (by simp) (.token (by simp) (.token (by simp) parts))
  next => cases read

/-- The tokens of an hour behind the first word of a date. -/
def hourTail : List Token → Nat
  | .blank [' '] :: .word _ :: _ => 2
  | _ => 0

/-- The rest of a date from a colon on, with the tokens of its hour. -/
def clockTail (hour : Nat) : List Token → Option Nat
  | .colon :: rest => do
    let used ← timeTail rest
    some (hour + 1 + used)
  | _ => some hour

theorem dateTail_eq (ts : List Token) :
    dateTail ts = clockTail (hourTail ts) (ts.drop (hourTail ts)) := rfl

theorem hourTail_line (same : SameLine ts us) : hourTail ts = hourTail us := by
  cases same with
  | newline => rfl
  | cons first same =>
    cases same with
    | newline => simp [hourTail]
    | cons second same =>
      unfold hourTail
      split
      next hour =>
        obtain ⟨rfl, word⟩ := List.cons.inj hour
        obtain ⟨rfl, -⟩ := List.cons.inj word
        rfl
      next noHour =>
        split
        next hour =>
          obtain ⟨rfl, word⟩ := List.cons.inj hour
          obtain ⟨rfl, -⟩ := List.cons.inj word
          exact absurd rfl (noHour _ _)
        next => rfl

theorem hourTail_inline (ts : List Token) : Inline ts (hourTail ts) := by
  unfold hourTail
  split
  · exact .token (by simp) (.token (by simp) (.none _))
  · exact .none _

theorem clockTail_line (same : SameLine ts us) (hour : Nat) :
    clockTail hour ts = clockTail hour us := by
  cases same with
  | newline => rfl
  | cons t same =>
    cases t with
    | colon => simp only [clockTail, timeTail_line same]
    | _ => rfl

theorem clockTail_inline {hour : Nat} (read : clockTail hour ts = some n) :
    ∃ used, n = hour + used ∧ Inline ts used := by
  unfold clockTail at read
  split at read
  next =>
    obtain ⟨used, isTime, same⟩ := Option.bind_eq_some_iff.1 read
    cases same
    exact ⟨used + 1, by omega, .token (by simp) (timeTail_inline isTime)⟩
  next =>
    cases read
    exact ⟨0, rfl, .none _⟩

theorem dateTail_line (same : SameLine ts us) : dateTail ts = dateTail us := by
  rw [dateTail_eq, dateTail_eq, ← hourTail_line same]
  exact clockTail_line ((hourTail_inline ts).drop same) _

theorem dateTail_inline (read : dateTail ts = some n) : Inline ts n := by
  rw [dateTail_eq] at read
  obtain ⟨used, rfl, clock⟩ := clockTail_inline read
  exact (hourTail_inline ts).append clock

theorem date_line (same : SameLine ts us) (text : List Char) : date text ts = date text us := by
  unfold date
  rw [← dateTail_line same]
  refine Option.bind_congr fun used isDate => ?_
  rw [(dateTail_inline isDate).take same]

theorem numberOrDate_line (same : SameLine ts us) (text : List Char) :
    numberOrDate text ts = numberOrDate text us := by
  unfold numberOrDate
  rw [date_line same, number_line same]
  cases same with
  | newline => rfl
  | @cons t ts us same =>
    cases t with
    | colon =>
      dsimp only
      rw [← timeTail_line same]
      split
      · rfl
      · refine Option.bind_congr fun used isTime => ?_
        rw [List.take_succ_cons, List.take_succ_cons, (timeTail_inline isTime).take same]
    | _ => rfl

theorem numberOrDate_inline {text : List Char} (read : numberOrDate text ts = some (node, n)) :
    Inline ts n := by
  unfold numberOrDate at read
  split at read
  next =>
    obtain ⟨used, isDate, same⟩ := Option.bind_eq_some_iff.1 read
    cases same
    exact dateTail_inline isDate
  next =>
    split at read
    next =>
      obtain ⟨used, isTime, same⟩ := Option.bind_eq_some_iff.1 read
      cases same
      exact .token (by simp) (timeTail_inline isTime)
    next => exact number_inline read

/-- What stands behind the newline does not matter for a value that is no array and no table. -/
theorem scalar_line (same : SameLine ts us) (first : Token) :
    scalar first ts = scalar first us := by
  cases first with
  | word text => simp only [scalar, numberOrDate_line same]
  | plus =>
    cases same with
    | newline => rfl
    | cons t same =>
      cases t with
      | word text => simp only [scalar, number_line same]
      | _ => rfl
  | _ => rfl

/-- Such a value takes no newline. -/
theorem scalar_inline {first : Token} (read : scalar first ts = some (node, n)) : Inline ts n := by
  unfold scalar at read
  split at read
  next =>
    cases read
    exact .none ts
  next =>
    split at read
    next =>
      obtain ⟨⟨value, used⟩, isNumber, same⟩ := Option.bind_eq_some_iff.1 read
      cases same
      exact .token (by simp) (number_inline isNumber)
    next => cases read
  next =>
    split at read
    next =>
      cases read
      exact .none ts
    next =>
      split at read
      next =>
        cases read
        exact .none ts
      next =>
        split at read
        next => exact numberOrDate_inline read
        next =>
          split at read
          next => exact numberOrDate_inline read
          next =>
            split at read
            next => exact numberOrDate_inline read
            next => cases read
          next => cases read
  next => cases read

end Scalars

/-- The last token is a newline. -/
inductive EndsLine : List Token → Prop
  | newline : EndsLine [.newline]
  | cons (t : Token) {ts : List Token} (ends : EndsLine ts) : EndsLine (t :: ts)

namespace EndsLine

variable {t : Token} {ts : List Token}

theorem tail (ends : EndsLine (t :: ts)) (noLine : t ≠ .newline) : EndsLine ts := by
  cases ends with
  | newline => exact absurd rfl noLine
  | cons _ ends => exact ends

theorem rest (ends : EndsLine (t :: ts)) : ts = [] ∨ EndsLine ts := by
  cases ends with
  | newline => exact .inl rfl
  | cons _ ends => exact .inr ends

theorem ne_nil (ends : EndsLine ts) : ts ≠ [] := by
  rintro rfl
  cases ends

theorem append {us : List Token} (ends : EndsLine us) : EndsLine (ts ++ us) := by
  induction ts with
  | nil => exact ends
  | cons t _ ih => exact .cons t ih

theorem exists_append (ends : EndsLine ts) : ∃ before, ts = before ++ [.newline] := by
  induction ends with
  | newline => exact ⟨[], rfl⟩
  | cons t _ ih =>
    obtain ⟨before, rfl⟩ := ih
    exact ⟨t :: before, rfl⟩

theorem drop {n : Nat} (ends : EndsLine ts) (inline : Inline ts n) : EndsLine (ts.drop n) := by
  induction inline with
  | none => exact ends
  | token noLine _ ih => exact ih (ends.tail noLine)

/-- More lines do not change what stands on the first one. -/
theorem sameLine (ends : EndsLine ts) (more : List Token) : SameLine ts (ts ++ more) := by
  induction ends with
  | newline => exact .newline [] more
  | cons t _ ih => exact .cons t ih

/-- The first token is there before more lines are. -/
theorem append_eq_cons (ends : EndsLine ts) {more rest : List Token}
    (same : ts ++ more = t :: rest) : ∃ inner, ts = t :: inner := by
  cases ends with
  | newline => exact ⟨[], by rw [(List.cons.inj same).1]⟩
  | @cons first inner _ => exact ⟨inner, by rw [(List.cons.inj same).1]⟩

theorem append_ne_cons (ends : EndsLine ts) {t : Token} (other : ∀ rest, ts ≠ t :: rest)
    (more rest : List Token) : ts ++ more ≠ t :: rest := by
  intro same
  obtain ⟨inner, same⟩ := ends.append_eq_cons same
  exact other inner same

theorem drop_append {n : Nat} (ends : EndsLine (ts.drop n)) (more : List Token) :
    (ts ++ more).drop n = ts.drop n ++ more := by
  have nonempty := ends.ne_nil
  rw [Ne, List.drop_eq_nil_iff] at nonempty
  exact List.drop_append_of_le_length (by omega)

end EndsLine

/-- What is read of `ts` leaves whole lines, and with more of them behind they are left too. -/
structure ReadsOn {α : Type} (read : List Token → Option (α × List Token)) (ts : List Token)
    (found : α) (left : List Token) : Prop where
  ends : EndsLine left
  reads : ∀ more, read (ts ++ more) = some (found, left ++ more)

section Readers

variable {ts left : List Token}

theorem skipBlank_ends (ends : EndsLine ts) : EndsLine (skipBlank ts) := by
  cases ends with
  | newline => exact .newline
  | cons t ends =>
    cases t with
    | blank => exact ends
    | _ => exact .cons _ ends

theorem skipBlank_append (ends : EndsLine ts) (more : List Token) :
    skipBlank (ts ++ more) = skipBlank ts ++ more := by
  cases ends with
  | newline => rfl
  | cons t ends => cases t <;> rfl

theorem skipBlank_starts {t : Token} (ends : EndsLine ts) (starts : skipBlank ts = t :: left) :
    EndsLine (t :: left) ∧ ∀ more, skipBlank (ts ++ more) = t :: left ++ more := by
  have behind := skipBlank_ends ends
  rw [starts] at behind
  refine ⟨behind, fun more => ?_⟩
  rw [skipBlank_append ends, starts]

/-- Either nothing but blanks and newlines is there, or the rest is whole lines again. -/
theorem skipLines_cases (ends : EndsLine ts) :
    (skipLines ts = [] ∧ ∀ more, skipLines (ts ++ more) = skipLines more) ∨
      (EndsLine (skipLines ts) ∧ ∀ more, skipLines (ts ++ more) = skipLines ts ++ more) := by
  induction ends with
  | newline => exact .inl ⟨rfl, fun more => rfl⟩
  | cons t ends ih =>
    cases t with
    | blank => exact ih
    | newline => exact ih
    | _ => exact .inr ⟨.cons _ ends, fun more => rfl⟩

theorem skipLines_ends {t : Token} (ends : EndsLine ts) (starts : skipLines ts = t :: left) :
    EndsLine (t :: left) ∧ ∀ more, skipLines (ts ++ more) = t :: left ++ more := by
  rcases skipLines_cases ends with ⟨nothing, -⟩ | whole
  · cases nothing.symm.trans starts
  · rwa [starts] at whole

theorem keyPath_on {path : List String} (ends : EndsLine ts)
    (read : keyPath ts = some (path, left)) : ReadsOn keyPath ts path left := by
  fun_induction keyPath ts generalizing path left with
  | case1 => cases read
  | case2 text rest ih =>
    have inner := ih (ends.tail (by simp)) read
    exact ⟨inner.ends, fun more => inner.reads more⟩
  | case3 first rest noBlank ih =>
    obtain ⟨key, isKey, read⟩ := Option.bind_eq_some_iff.1 read
    have ends : EndsLine rest := ends.tail (by
      rintro rfl
      cases isKey)
    split at read
    next more =>
      obtain ⟨⟨inner, behind⟩, isPath, same⟩ := Option.bind_eq_some_iff.1 read
      cases same
      have rest := ih (ends.tail (by simp)) isPath
      refine ⟨rest.ends, fun more => ?_⟩
      rw [List.cons_append, keyPath, isKey, Option.bind_eq_bind, Option.bind_some, List.cons_append]
      · dsimp only
        rw [rest.reads]
        rfl
      · exact noBlank
    next text more =>
      obtain ⟨⟨inner, behind⟩, isPath, same⟩ := Option.bind_eq_some_iff.1 read
      cases same
      have rest := ih ((ends.tail (by simp)).tail (by simp)) isPath
      refine ⟨rest.ends, fun more => ?_⟩
      rw [List.cons_append, keyPath, isKey, Option.bind_eq_bind, Option.bind_some, List.cons_append,
        List.cons_append]
      · dsimp only
        rw [rest.reads]
        rfl
      · exact noBlank
    next noDot noSpacedDot =>
      cases read
      refine ⟨skipBlank_ends ends, fun more => ?_⟩
      rw [List.cons_append, keyPath, isKey, Option.bind_eq_bind, Option.bind_some,
        ← skipBlank_append ends]
      · split
        next dotted =>
          obtain ⟨_, same⟩ := ends.append_eq_cons dotted
          exact absurd same (noDot _)
        next spaced =>
          obtain ⟨inner, same⟩ := ends.append_eq_cons spaced
          subst same
          obtain ⟨_, same⟩ := (ends.tail (by simp)).append_eq_cons (List.cons.inj spaced).2
          rw [same] at noSpacedDot
          exact absurd rfl (noSpacedDot _ _)
        next => rfl
      · exact noBlank

/-- The readers of values, of the items of an array and of the members of an inline table, with this
bound or more. -/
structure ReadersOn (bound : Nat) : Prop where
  value : ∀ {ts node left}, EndsLine ts → valueWithin bound ts = some (node, left) →
    ∀ larger, bound ≤ larger → ReadsOn (valueWithin larger) ts node left
  items : ∀ {ts items left}, EndsLine ts → itemsWithin bound ts = some (items, left) →
    ∀ larger, bound ≤ larger → ReadsOn (itemsWithin larger) ts items left
  members : ∀ {entries ts members left}, EndsLine ts →
    membersWithin bound entries ts = some (members, left) →
    ∀ larger, bound ≤ larger → ReadsOn (membersWithin larger entries) ts members left

theorem ReadersOn.value_succ {bound : Nat} (inner : ReadersOn bound) {node : Node}
    (ends : EndsLine ts) (read : valueWithin (bound + 1) ts = some (node, left)) {larger : Nat}
    (enough : bound ≤ larger) : ReadsOn (valueWithin (larger + 1)) ts node left := by
  cases valueWithin_eq_some_iff.1 read with
  | array areItems =>
    have array := inner.items (ends.tail (by simp)) areItems larger enough
    exact ⟨array.ends, fun more => valueWithin_eq_some_iff.2 (.array (array.reads more))⟩
  | @emptyTable rest left closed =>
    obtain ⟨behind, skipped⟩ := skipBlank_starts (ends.tail (by simp)) closed
    refine ⟨behind.tail (by simp), fun more => ?_⟩
    exact valueWithin_eq_some_iff.2 (.emptyTable (skipped more))
  | @table rest left members opened areMembers =>
    have ends : EndsLine rest := ends.tail (by simp)
    have start := skipBlank_ends ends
    have table := inner.members start areMembers larger enough
    refine ⟨table.ends, fun more => ?_⟩
    have skipped := skipBlank_append ends more
    refine valueWithin_eq_some_iff.2 (.table ?_ (skipped ▸ table.reads more))
    exact skipped ▸ start.append_ne_cons opened more
  | @scalar first rest node used isScalar =>
    have noLine : first ≠ .newline := by
      rintro rfl
      cases isScalar
    have ends := ends.tail noLine
    have behind := ends.drop (scalar_inline isScalar)
    refine ⟨behind, fun more => ?_⟩
    have same : scalar first (rest ++ more) = some (node, used) :=
      (scalar_line (ends.sameLine more) first).symm.trans isScalar
    rw [List.cons_append, ← behind.drop_append]
    exact valueWithin_eq_some_iff.2 (.scalar same)

/-- An item is there before more lines are, since a value cannot start with what closes the
array. -/
theorem item_on {bound : Nat} (inner : ReadersOn bound) {item : Node} {behind : List Token}
    (ends : EndsLine ts) (opened : ∀ left, skipLines ts ≠ .closeBracket :: left)
    (isItem : valueWithin bound (skipLines ts) = some (item, behind)) {larger : Nat}
    (enough : bound ≤ larger) : EndsLine behind ∧ ∀ more,
      (∀ left, skipLines (ts ++ more) ≠ .closeBracket :: left) ∧
      valueWithin larger (skipLines (ts ++ more)) = some (item, behind ++ more) := by
  rcases skipLines_cases ends with ⟨nothing, -⟩ | ⟨whole, skipped⟩
  · rw [nothing] at isItem
    cases bound <;> simp [valueWithin] at isItem
  · have item := inner.value whole isItem larger enough
    refine ⟨item.ends, fun more => ?_⟩
    rw [skipped]
    exact ⟨whole.append_ne_cons opened more, item.reads more⟩

theorem ReadersOn.items_succ {bound : Nat} (inner : ReadersOn bound) {items : List Node}
    (ends : EndsLine ts) (read : itemsWithin (bound + 1) ts = some (items, left)) {larger : Nat}
    (enough : bound ≤ larger) : ReadsOn (itemsWithin (larger + 1)) ts items left := by
  cases itemsWithin_eq_some_iff.1 read with
  | none closed =>
    obtain ⟨whole, skipped⟩ := skipLines_ends ends closed
    exact ⟨whole.tail (by simp), fun more => itemsWithin_eq_some_iff.2 (.none (skipped more))⟩
  | last opened isItem closed =>
    obtain ⟨ends, item⟩ := item_on inner ends opened isItem enough
    obtain ⟨whole, skipped⟩ := skipLines_ends ends closed
    refine ⟨whole.tail (by simp), fun more => itemsWithin_eq_some_iff.2 ?_⟩
    exact .last (item more).1 (item more).2 (skipped more)
  | more opened isItem comma areItems =>
    obtain ⟨ends, item⟩ := item_on inner ends opened isItem enough
    obtain ⟨whole, skipped⟩ := skipLines_ends ends comma
    have rest := inner.items (whole.tail (by simp)) areItems larger enough
    refine ⟨rest.ends, fun more => itemsWithin_eq_some_iff.2 ?_⟩
    exact .more (item more).1 (item more).2 (skipped more) (rest.reads more)

/-- The value of a member, behind the equals sign of its key. -/
theorem member_on {bound : Nat} (inner : ReadersOn bound) {path : List String} {node : Node}
    {rest behind : List Token} (ends : EndsLine ts)
    (isPath : keyPath ts = some (path, .equals :: rest))
    (isValue : valueWithin bound (skipBlank rest) = some (node, behind)) {larger : Nat}
    (enough : bound ≤ larger) : EndsLine behind ∧ ∀ more,
      keyPath (ts ++ more) = some (path, .equals :: (rest ++ more)) ∧
      valueWithin larger (skipBlank (rest ++ more)) = some (node, behind ++ more) := by
  have key := keyPath_on ends isPath
  have ends : EndsLine rest := key.ends.tail (by simp)
  have value := inner.value (skipBlank_ends ends) isValue larger enough
  refine ⟨value.ends, fun more => ⟨key.reads more, ?_⟩⟩
  rw [skipBlank_append ends]
  exact value.reads more

theorem ReadersOn.members_succ {bound : Nat} (inner : ReadersOn bound)
    {entries members : List (String × Node)} (ends : EndsLine ts)
    (read : membersWithin (bound + 1) entries ts = some (members, left)) {larger : Nat}
    (enough : bound ≤ larger) : ReadsOn (membersWithin (larger + 1) entries) ts members left := by
  cases membersWithin_eq_some_iff.1 read with
  | last isPath isValue inserted closed =>
    obtain ⟨ends, member⟩ := member_on inner ends isPath isValue enough
    obtain ⟨whole, skipped⟩ := skipBlank_starts ends closed
    refine ⟨whole.tail (by simp), fun more => membersWithin_eq_some_iff.2 ?_⟩
    exact .last (member more).1 (member more).2 inserted (skipped more)
  | more isPath isValue inserted comma areMembers =>
    obtain ⟨ends, member⟩ := member_on inner ends isPath isValue enough
    obtain ⟨whole, skipped⟩ := skipBlank_starts ends comma
    have rest := inner.members (whole.tail (by simp)) areMembers larger enough
    refine ⟨rest.ends, fun more => membersWithin_eq_some_iff.2 ?_⟩
    exact .more (member more).1 (member more).2 inserted (skipped more) (rest.reads more)

/-- The readers call each other with a smaller bound; with none left they read nothing. -/
theorem readersOn (bound : Nat) : ReadersOn bound := by
  induction bound with
  | zero =>
    refine ⟨fun _ read => ?_, fun _ read => ?_, fun _ read => ?_⟩
    all_goals cases read
  | succ bound inner =>
    refine ⟨fun ends read => ?_, fun ends read => ?_, fun ends read => ?_⟩
    all_goals
      intro larger enough
      obtain ⟨larger, rfl⟩ := Nat.exists_eq_add_of_lt enough
    · exact inner.value_succ ends read (Nat.le_add_right bound larger)
    · exact inner.items_succ ends read (Nat.le_add_right bound larger)
    · exact inner.members_succ ends read (Nat.le_add_right bound larger)

theorem value_on {node : Node} (ends : EndsLine ts) (read : value ts = some (node, left)) :
    ReadsOn value ts node left where
  ends := ((readersOn _).value ends read _ (Nat.le_refl _)).ends
  reads more := by
    have enough : 2 * ts.length + 2 ≤ 2 * (ts ++ more).length + 2 := by
      rw [List.length_append]
      omega
    exact ((readersOn _).value ends read _ enough).reads more

theorem statement_on {st : Statement} (ends : EndsLine ts) (read : statement ts = some (st, left)) :
    ReadsOn statement ts st left := by
  cases statement_eq_some_iff.1 read with
  | @element rest left path isPath =>
    have behind : EndsLine (.openBracket :: rest) := ends.tail (by simp)
    have key := keyPath_on (behind.tail (by simp)) isPath
    have closed := key.ends.tail (by simp)
    exact ⟨closed.tail (by simp), fun more => statement_eq_some_iff.2 (.element (key.reads more))⟩
  | header isPath =>
    have key := keyPath_on (ends.tail (by simp)) isPath
    exact ⟨key.ends.tail (by simp), fun more => statement_eq_some_iff.2 (.header (key.reads more))⟩
  | @pair _ rest _ path node isPath isValue =>
    have key := keyPath_on ends isPath
    have behind : EndsLine rest := key.ends.tail (by simp)
    have value := value_on (skipBlank_ends behind) isValue
    refine ⟨value.ends, fun more => ?_⟩
    have skipped := skipBlank_append behind more
    exact statement_eq_some_iff.2 (.pair (key.reads more) (skipped ▸ value.reads more))

theorem statementsWithin_mono {bound larger : Nat} (enough : bound ≤ larger) {sts : List Statement}
    (read : statementsWithin bound ts = some sts) : statementsWithin larger ts = some sts := by
  induction bound generalizing larger ts sts with
  | zero => cases read
  | succ bound ih =>
    obtain ⟨larger, rfl⟩ := Nat.exists_eq_add_of_lt enough
    have least : bound ≤ bound + larger := Nat.le_add_right bound larger
    refine statementsWithin_eq_some_iff.2 ?_
    cases statementsWithin_eq_some_iff.1 read with
    | none nothing => exact .none nothing
    | last isStatement nothing => exact .last isStatement nothing
    | more isStatement newline areStatements =>
      exact .more isStatement newline (ih least areStatements)

theorem statementsWithin_skip {us vs : List Token} (same : skipLines us = skipLines vs)
    (bound : Nat) : statementsWithin bound us = statementsWithin bound vs := by
  cases bound with
  | zero => rfl
  | succ bound => rw [statementsWithin, statementsWithin, same]

/-- The statements of whole lines come first, and then those of the lines behind them. -/
theorem statementsWithin_append {bound : Nat} {sts : List Statement} (whole : ts = [] ∨ EndsLine ts)
    (read : statementsWithin bound ts = some sts) {rest : List Token} {more : List Statement}
    {boundRest larger : Nat} (readRest : statementsWithin boundRest rest = some more)
    (enough : bound + boundRest ≤ larger + 1) :
    statementsWithin larger (ts ++ rest) = some (sts ++ more) := by
  induction bound generalizing ts sts larger with
  | zero => cases read
  | succ bound ih =>
    have reached : statementsWithin larger rest = some more :=
      statementsWithin_mono (by omega) readRest
    rcases whole with rfl | ends
    · cases read
      exact reached
    · rcases skipLines_cases ends with ⟨nothing, skipped⟩ | ⟨whole, skipped⟩
      · rw [statementsWithin, nothing] at read
        cases read
        rw [statementsWithin_skip (skipped rest) larger]
        exact reached
      · cases statementsWithin_eq_some_iff.1 read with
        | none nothing => exact absurd nothing whole.ne_nil
        | last isStatement nothing =>
          have statement := statement_on whole isStatement
          exact absurd nothing (skipBlank_ends statement.ends).ne_nil
        | more isStatement newline areStatements =>
          have statement := statement_on whole isStatement
          have behind := skipBlank_ends statement.ends
          rw [newline] at behind
          obtain ⟨larger, rfl⟩ : ∃ k, larger = k + 1 := by
            cases boundRest with
            | zero => cases readRest
            | succ => exact Nat.exists_eq_add_one_of_ne_zero (by omega)
          have first := statement.reads rest
          rw [← skipped] at first
          have later := skipBlank_append statement.ends rest
          rw [newline] at later
          exact statementsWithin_eq_some_iff.2
            (.more first later (ih behind.rest areStatements (by omega)))

/-- Behind whole lines, whatever is read of other lines is read as before. -/
theorem statements_append {sts : List Statement} (whole : ts = [] ∨ EndsLine ts)
    (read : statements ts = some sts) {rest : List Token} {more : List Statement}
    (readRest : statements rest = some more) : statements (ts ++ rest) = some (sts ++ more) := by
  refine statementsWithin_append whole read readRest ?_
  rw [List.length_append]
  omega

end Readers

end WordFields.Toml
