import WordFields.Proofs.Toml.Steps

/-!
# What every value of a text inherits

A value is a scalar, an array or an inline table, and tables grow only by keys. A property that the
scalars have and that arrays and tables take over from what is in them is therefore one of every
value that is read, at any depth. The readers of numbers check the integers that they give.
-/

set_option autoImplicit false

namespace WordFields.Toml

/-- The value is no array and no table, and an integer has 64 bits and a sign. -/
inductive Node.IsScalar : Node → Prop
  | integer {n : Int} (inRange : inIntegerRange n = true) : IsScalar (.integer n)
  | float (x : Binary64) : IsScalar (.float x)
  | boolean (b : Bool) : IsScalar (.boolean b)
  | text (t : String) : IsScalar (.text t)
  | date (spelling : String) : IsScalar (.date spelling)

/-- What both readers of integers check last. -/
theorem inRange_of_checked {whole : Bool} {value n : Int}
    (checked : (if whole && inIntegerRange value then some value else none) = some n) :
    inIntegerRange n = true := by
  split at checked
  next passed =>
    injection checked with same
    rw [← same]
    exact (Bool.and_eq_true_iff.1 passed).2
  next => cases checked

theorem decimalInteger_inRange {text : List Char} {n : Int} (read : decimalInteger text = some n) :
    inIntegerRange n = true := by
  unfold decimalInteger at read
  generalize splitMinus text = parts at read
  obtain ⟨digits, _, checked⟩ := Option.bind_eq_some_iff.1 read
  exact inRange_of_checked checked

theorem basedInteger_inRange {base : Nat} {text : List Char} {n : Int}
    (read : basedInteger base text = some n) : inIntegerRange n = true := by
  obtain ⟨digits, _, checked⟩ := Option.bind_eq_some_iff.1 read
  exact inRange_of_checked checked

theorem float_isScalar {text : List Char} {places : Option (List Char)} {following : List Token}
    {node : Node} {used : Nat} (read : float text places following = some (node, used)) :
    node.IsScalar := by
  unfold float at read
  generalize splitMinus text = parts at read
  obtain ⟨digits, _, read⟩ := Option.bind_eq_some_iff.1 read
  have behind : ∀ decimals : List Char × List Char,
      (do
        let power ← exponent decimals.2 following
        let x ← Binary64.ofDecimal parts.1 (digitsValue 10 (digits.1 ++ decimals.1))
          (power.1 - decimals.1.length)
        some (Node.float x, power.2)) = some (node, used) → node.IsScalar := by
    intro decimals read
    obtain ⟨power, _, read⟩ := Option.bind_eq_some_iff.1 read
    obtain ⟨x, _, read⟩ := Option.bind_eq_some_iff.1 read
    cases read
    exact .float x
  cases places with
  | none =>
    obtain ⟨decimals, _, read⟩ := Option.bind_eq_some_iff.1 read
    exact behind decimals read
  | some places =>
    dsimp only at read
    split at read
    next =>
      obtain ⟨decimals, _, read⟩ := Option.bind_eq_some_iff.1 read
      exact behind decimals read
    next => cases read

theorem number_isScalar {text : List Char} {following : List Token} {node : Node} {used : Nat}
    (read : number text following = some (node, used)) : node.IsScalar := by
  have based : ∀ {base : Nat} {digits : List Char},
      (do
        let n ← basedInteger base digits
        some (Node.integer n, 0)) = some (node, used) → node.IsScalar := by
    intro base digits read
    obtain ⟨n, isInteger, same⟩ := Option.bind_eq_some_iff.1 read
    cases same
    exact .integer (basedInteger_inRange isInteger)
  unfold number at read
  split at read
  next => exact based read
  next => exact based read
  next => exact based read
  next =>
    split at read
    next => exact float_isScalar read
    next =>
      split at read
      next =>
        obtain ⟨⟨value, more⟩, isFloat, same⟩ := Option.bind_eq_some_iff.1 read
        cases same
        exact float_isScalar isFloat
      next => cases read
      next =>
        split at read
        next => cases read; exact .float _
        next =>
          split at read
          next => cases read; exact .float _
          next =>
            split at read
            next => cases read; exact .float _
            next =>
              obtain ⟨n, isInteger, same⟩ := Option.bind_eq_some_iff.1 read
              cases same
              exact .integer (decimalInteger_inRange isInteger)

theorem numberOrDate_isScalar {text : List Char} {following : List Token} {node : Node} {used : Nat}
    (read : numberOrDate text following = some (node, used)) : node.IsScalar := by
  unfold numberOrDate at read
  split at read
  next =>
    obtain ⟨_, _, same⟩ := Option.bind_eq_some_iff.1 read
    cases same
    exact .date _
  next =>
    split at read
    next =>
      obtain ⟨_, _, same⟩ := Option.bind_eq_some_iff.1 read
      cases same
      exact .date _
    next => exact number_isScalar read

theorem scalar_isScalar {first : Token} {following : List Token} {node : Node} {used : Nat}
    (read : scalar first following = some (node, used)) : node.IsScalar := by
  unfold scalar at read
  split at read
  next => cases read; exact .text _
  next =>
    split at read
    next =>
      obtain ⟨⟨value, more⟩, isNumber, same⟩ := Option.bind_eq_some_iff.1 read
      cases same
      exact number_isScalar isNumber
    next => cases read
  next =>
    split at read
    next => cases read; exact .boolean _
    next =>
      split at read
      next => cases read; exact .boolean _
      next =>
        split at read
        next => exact numberOrDate_isScalar read
        next =>
          split at read
          next => exact numberOrDate_isScalar read
          next =>
            split at read
            next => exact numberOrDate_isScalar read
            next => cases read
          next => cases read
  next => cases read

/-- Every value of these entries has the property. -/
def EachEntry (P : Node → Prop) (entries : List (String × Node)) : Prop := ∀ e ∈ entries, P e.2

namespace EachEntry

variable {P : Node → Prop} {key : String} {node : Node} {entries more : List (String × Node)}

theorem nil : EachEntry P [] := List.forall_mem_nil _

theorem cons (first : P node) (rest : EachEntry P entries) : EachEntry P ((key, node) :: entries) :=
  List.forall_mem_cons.2 ⟨first, rest⟩

theorem append (each : EachEntry P entries) (rest : EachEntry P more) :
    EachEntry P (entries ++ more) :=
  List.forall_mem_append.2 ⟨each, rest⟩

end EachEntry

/-- Scalars have the property, and arrays and tables have it as far as their values do. -/
structure Node.Inherited (P : Node → Prop) : Prop where
  scalar : ∀ {node}, node.IsScalar → P node
  array : ∀ {items}, (∀ node ∈ items, P node) → P (.array items)
  table_iff : ∀ {kind entries}, kind ≠ .repeated → (P (.table kind entries) ↔ EachEntry P entries)

section Inherited

variable {P : Node → Prop} (inherited : Node.Inherited P)
include inherited

theorem extendFirst_inherits {key : String}
    {grow : List (String × Node) → Option (List (String × Node))}
    (grows : ∀ entries grown, EachEntry P entries → grow entries = some grown → EachEntry P grown)
    {entries extended : List (String × Node)} (before : EachEntry P entries)
    (grew : extendFirst key grow entries = some extended) : EachEntry P extended := by
  have dotted : ∀ {inner}, P (.table .dotted inner) ↔ EachEntry P inner :=
    inherited.table_iff (by decide)
  induction entries generalizing extended with
  | nil =>
    obtain ⟨grown, isGrown, same⟩ := Option.bind_eq_some_iff.1 grew
    cases same
    exact .cons (dotted.2 (grows [] grown .nil isGrown)) .nil
  | cons e rest ih =>
    obtain ⟨name, node⟩ := e
    obtain ⟨first, later⟩ := List.forall_mem_cons.1 before
    unfold extendFirst at grew
    split at grew
    next =>
      split at grew
      next entries =>
        obtain ⟨grown, isGrown, same⟩ := Option.bind_eq_some_iff.1 grew
        cases same
        exact .cons (dotted.2 (grows entries grown (dotted.1 first) isGrown)) later
      next => cases grew
    next =>
      obtain ⟨more, isMore, same⟩ := Option.bind_eq_some_iff.1 grew
      cases same
      exact .cons first (ih later isMore)

theorem insertPath_inherits {value : Node} (isValue : P value) {path : List String}
    {entries grown : List (String × Node)} (before : EachEntry P entries)
    (inserted : insertPath value path entries = some grown) : EachEntry P grown := by
  induction path generalizing entries grown with
  | nil => cases inserted
  | cons key path ih =>
    cases path with
    | nil =>
      cases inserted
      exact before.append (.cons isValue .nil)
    | cons next path => exact extendFirst_inherits inherited (fun _ _ => ih) before inserted

/-- What the readers of values, items of arrays and members of inline tables give with this bound
has the property. -/
structure ReadersInherit (P : Node → Prop) (bound : Nat) : Prop where
  value : ∀ {ts node left}, valueWithin bound ts = some (node, left) → P node
  items : ∀ {ts items left}, itemsWithin bound ts = some (items, left) → ∀ node ∈ items, P node
  members : ∀ {entries ts members left}, EachEntry P entries →
    membersWithin bound entries ts = some (members, left) → EachEntry P members

namespace ReadersInherit

variable {bound : Nat} {ts left : List Token}

theorem value_succ (inner : ReadersInherit P bound) {node : Node}
    (read : valueWithin (bound + 1) ts = some (node, left)) : P node := by
  have closed : ∀ {inner}, P (.table .closed inner) ↔ EachEntry P inner :=
    inherited.table_iff (by decide)
  cases valueWithin_eq_some_iff.1 read with
  | array areItems => exact inherited.array (inner.items areItems)
  | emptyTable => exact closed.2 .nil
  | table _ areMembers => exact closed.2 (inner.members .nil areMembers)
  | scalar isScalar => exact inherited.scalar (scalar_isScalar isScalar)

omit inherited in
theorem items_succ (inner : ReadersInherit P bound) {found : List Node}
    (read : itemsWithin (bound + 1) ts = some (found, left)) : ∀ node ∈ found, P node := by
  cases itemsWithin_eq_some_iff.1 read with
  | none => exact List.forall_mem_nil _
  | last _ isItem => exact List.forall_mem_singleton.2 (inner.value isItem)
  | more _ isItem _ areItems =>
    exact List.forall_mem_cons.2 ⟨inner.value isItem, inner.items areItems⟩

theorem members_succ (inner : ReadersInherit P bound) {entries found : List (String × Node)}
    (before : EachEntry P entries)
    (read : membersWithin (bound + 1) entries ts = some (found, left)) : EachEntry P found := by
  have grows {path : List String} {node : Node} {grown : List (String × Node)} (isValue : P node)
      (inserted : insertPath node path entries = some grown) : EachEntry P grown :=
    insertPath_inherits inherited isValue before inserted
  cases membersWithin_eq_some_iff.1 read with
  | last _ isValue inserted => exact grows (inner.value isValue) inserted
  | more _ isValue inserted _ areMembers =>
    exact inner.members (grows (inner.value isValue) inserted) areMembers

end ReadersInherit

/-- The readers call each other with a smaller bound; with none left they read nothing. -/
theorem readersInherit (bound : Nat) : ReadersInherit P bound := by
  induction bound with
  | zero =>
    refine ⟨fun read => ?_, fun read => ?_, fun _ read => ?_⟩
    all_goals cases read
  | succ bound inner =>
    exact ⟨inner.value_succ inherited, inner.items_succ, inner.members_succ inherited⟩

/-- What a statement adds to the text's table has the property. -/
def Statement.Has (P : Node → Prop) : Statement → Prop
  | .header _ => True
  | .pair _ node => P node

theorem statement_inherits {ts left : List Token} {st : Statement}
    (read : statement ts = some (st, left)) : st.Has P := by
  cases statement_eq_some_iff.1 read with
  | element => trivial
  | header => trivial
  | pair _ isValue => exact (readersInherit inherited _).value isValue

theorem statementsWithin_inherits {bound : Nat} {ts : List Token} {sts : List Statement}
    (read : statementsWithin bound ts = some sts) : ∀ st ∈ sts, st.Has P := by
  induction bound generalizing ts sts with
  | zero => cases read
  | succ bound ih =>
    cases statementsWithin_eq_some_iff.1 read with
    | none => exact List.forall_mem_nil _
    | last isStatement =>
      exact List.forall_mem_singleton.2 (statement_inherits inherited isStatement)
    | more isStatement _ areStatements =>
      exact List.forall_mem_cons.2 ⟨statement_inherits inherited isStatement, ih areStatements⟩

end Inherited

theorem Node.itemsIntact_iff {items : List Node} :
    itemsIntact items = true ↔ ∀ node ∈ items, node.intact = true := by
  induction items with
  | nil => simp [itemsIntact]
  | cons item rest ih => simp [itemsIntact, ih]

theorem Node.entriesIntact_iff {entries : List (String × Node)} :
    entriesIntact entries = true ↔ ∀ e ∈ entries, e.2.intact = true := by
  induction entries with
  | nil => simp [entriesIntact]
  | cons e rest ih =>
    obtain ⟨key, node⟩ := e
    simp [entriesIntact, entryIntact, ih]

/-- Only headers open a table twice, and there is none in a value. -/
theorem Node.inherited_intact : Node.Inherited fun node => node.intact = true where
  scalar isScalar := by cases isScalar <;> rfl
  array each := itemsIntact_iff.2 each
  table_iff := by
    intro kind entries unbroken
    simp [intact, unbroken, entriesIntact_iff, EachEntry]

end WordFields.Toml
