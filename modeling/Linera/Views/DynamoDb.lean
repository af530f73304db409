import Linera.Lib.Except
import Linera.Lib.Bytes

/-!
# The result pages of DynamoDB

A search by prefix gets its items from DynamoDB in pages. They are kept as they
come, and three iterators go over them: one for keys, and two for keys with their
values. All three move on to the next page when one is exhausted, but they look at
only one more page: if that has no items, they say that they are done.
-/

namespace Linera.Views.DynamoDb

/-- The value of an attribute: a blob, or a value of a type with the given description. -/
inductive AttributeValue where
  | b (blob : Bytes)
  | other (typeDescription : String)
deriving DecidableEq

/-- The attributes of an item that are read: `item_key` and `item_value`. -/
structure Attributes where
  itemKey : Option AttributeValue
  itemValue : Option AttributeValue
deriving DecidableEq

inductive DynamoDbStoreInternalError where
  /-- "The stored key attribute is missing" -/
  | missingKey
  /-- "Key was stored as {0}, but it was expected to be stored as a binary blob" -/
  | wrongKeyType (typeDescription : String)
  /-- "The stored value attribute is missing" -/
  | missingValue
  /-- "Value was stored as {0}, but it was expected to be stored as a binary blob" -/
  | wrongValueType (typeDescription : String)
  /-- A key that is shorter than the prefix. -/
  | panicked
deriving DecidableEq

def extractKey (prefixLen : Nat) (attributes : Attributes) :
    Except DynamoDbStoreInternalError Bytes :=
  match attributes.itemKey with
  | none => .error .missingKey
  | some (.b blob) => if prefixLen ≤ blob.length then .ok (blob.drop prefixLen) else .error .panicked
  | some (.other type) => .error (.wrongKeyType type)

def extractValue (attributes : Attributes) : Except DynamoDbStoreInternalError Bytes :=
  match attributes.itemValue with
  | none => .error .missingValue
  | some (.b blob) => .ok blob
  | some (.other type) => .error (.wrongValueType type)

def extractKeyValue (prefixLen : Nat) (attributes : Attributes) :
    Except DynamoDbStoreInternalError (Bytes × Bytes) := do
  let key ← extractKey prefixLen attributes
  let value ← extractValue attributes
  return (key, value)

/-- One of the responses of `get_list_responses`, which makes at least one query. -/
structure QueryOutput where
  items : Option (List Attributes)

def QueryOutput.page (response : QueryOutput) : List Attributes := response.items.getD []

/-! ## Iterators -/

/-- What is left of each page, and the page that is being read. -/
structure BlockIterator where
  pos : Nat
  iters : List (List Attributes)

/-- `iterator`, for keys and for key-values. -/
def iterator (responses : List QueryOutput) : BlockIterator := ⟨0, responses.map QueryOutput.page⟩

/-- The next item, if there is one. The result is `none` if the iterator panics because it has no
page. -/
def BlockIterator.next {β : Type} (extract : Attributes → β) (it : BlockIterator) :
    Option (Option β × BlockIterator) :=
  match it.iters[it.pos]? with
  | none => none
  | some (item :: rest) =>
    some (some (extract item), { it with iters := it.iters.set it.pos rest })
  | some [] =>
    if it.pos = it.iters.length - 1 then some (none, it)
    else
      let pos := it.pos + 1
      match it.iters[pos]? with
      | none => none
      | some [] => some (none, { it with pos })
      | some (item :: rest) => some (some (extract item), ⟨pos, it.iters.set pos rest⟩)

namespace DynamoDbKeyBlockIterator

def next (prefixLen : Nat) :
    BlockIterator → Option (Option (Except DynamoDbStoreInternalError Bytes) × BlockIterator) :=
  BlockIterator.next (extractKey prefixLen)

end DynamoDbKeyBlockIterator

namespace DynamoDbKeyValueIterator

def next (prefixLen : Nat) : BlockIterator →
    Option (Option (Except DynamoDbStoreInternalError (Bytes × Bytes)) × BlockIterator) :=
  BlockIterator.next (extractKeyValue prefixLen)

end DynamoDbKeyValueIterator

namespace DynamoDbKeyValueIteratorOwned

/-- The items are consumed, but what is extracted is the same. -/
def next (prefixLen : Nat) : BlockIterator →
    Option (Option (Except DynamoDbStoreInternalError (Bytes × Bytes)) × BlockIterator) :=
  BlockIterator.next (extractKeyValue prefixLen)

end DynamoDbKeyValueIteratorOwned

/-- Collects what an iterator yields until it returns `None`, with a bound on the number of
calls. -/
def collect {β : Type} (next : BlockIterator → Option (Option β × BlockIterator)) :
    Nat → BlockIterator → Option (List β)
  | 0, _ => none
  | calls + 1, it =>
    match next it with
    | none => none
    | some (none, _) => some []
    | some (some item, it) => (collect next calls it).map (item :: ·)

/-! ## What is collected -/

/-- The first page and the pages up to the next empty one. -/
def collected : List (List Attributes) → List Attributes
  | [] => []
  | page :: pages => page ++ (pages.takeWhile (!·.isEmpty)).flatten

/-- What is left to read. -/
def BlockIterator.left (it : BlockIterator) : List (List Attributes) := it.iters.drop it.pos

theorem drop_set_self {α : Type} {l : List α} {n : Nat} {a : α} {rest : List α} (b : α)
    (h : l.drop n = a :: rest) : (l.set n b).drop n = b :: rest := by
  rw [List.drop_set, if_neg (lt_irrefl n), Nat.sub_self, h]
  rfl

variable {it : BlockIterator} {β : Type}

/-- What one call does depends only on what is left. -/
theorem next_of_left (extract : Attributes → β) {page : List Attributes}
    {pages : List (List Attributes)} (h : it.left = page :: pages) :
    (collected (page :: pages) = [] ∧ ∃ it', it.next extract = some (none, it')) ∨
    ∃ item page' pages' it', collected (page :: pages) = item :: collected (page' :: pages') ∧
      it'.left = page' :: pages' ∧ it.next extract = some (some (extract item), it') := by
  have hdrop : it.iters.drop it.pos = page :: pages := h
  have hpage : it.iters[it.pos]? = some page := by
    rw [← Nat.add_zero it.pos, ← List.getElem?_drop, hdrop]
    rfl
  have hlength := congrArg List.length hdrop
  rw [List.length_drop, List.length_cons] at hlength
  unfold BlockIterator.next
  rw [hpage]
  cases page with
  | cons item page' =>
    exact .inr ⟨item, page', pages, { it with iters := it.iters.set it.pos page' }, rfl,
      drop_set_self page' hdrop, rfl⟩
  | nil =>
    cases pages with
    | nil =>
      rw [List.length_nil] at hlength
      refine .inl ⟨rfl, it, ?_⟩
      dsimp only
      rw [if_pos (by omega)]
    | cons page₁ pages₁ =>
      rw [List.length_cons] at hlength
      have hdrop₁ : it.iters.drop (it.pos + 1) = page₁ :: pages₁ := by
        rw [← List.drop_drop, hdrop]
        rfl
      have hpage₁ : it.iters[it.pos + 1]? = some page₁ := by
        rw [← Nat.add_zero (it.pos + 1), ← List.getElem?_drop, hdrop₁]
        rfl
      dsimp only
      rw [if_neg (by omega), hpage₁]
      cases page₁ with
      | nil =>
        -- The iterator looks at one more page only, and that one is empty.
        exact .inl ⟨rfl, _, rfl⟩
      | cons item page' =>
        refine .inr ⟨item, page', pages₁, ⟨it.pos + 1, it.iters.set (it.pos + 1) page'⟩, ?_,
          drop_set_self page' hdrop₁, rfl⟩
        simp [collected]

/-- Collecting takes one call for each item, and one more. -/
theorem collect_eq (extract : Attributes → β) {page : List Attributes}
    {pages : List (List Attributes)} (h : it.left = page :: pages) {calls : Nat}
    (hcalls : (collected (page :: pages)).length < calls) :
    collect (BlockIterator.next extract) calls it =
      some ((collected (page :: pages)).map extract) := by
  induction calls generalizing it page pages with
  | zero => omega
  | succ calls ih =>
    obtain ⟨hnil, it', hnext⟩ | ⟨item, page', pages', it', hcons, hleft, hnext⟩ :=
      next_of_left extract h
    · rw [collect, hnext, hnil]
      rfl
    · rw [hcons, List.length_cons] at hcalls
      rw [collect, hnext, hcons]
      dsimp only
      rw [ih hleft (by omega)]
      rfl

/-- A collection that ends does not depend on the bound. -/
theorem collect_unique {next : BlockIterator → Option (Option β × BlockIterator)}
    {calls calls' : Nat} {r r' : List β} (h : collect next calls it = some r)
    (h' : collect next calls' it = some r') : r = r' := by
  induction calls generalizing it calls' r r' with
  | zero => cases h
  | succ calls ih =>
    cases calls' with
    | zero => cases h'
    | succ calls' =>
      rw [collect] at h h'
      split at h
      · cases h
      · next hnext =>
        rw [hnext] at h'
        exact Option.some.inj (h.symm.trans h')
      · next item it' hnext =>
        rw [hnext] at h'
        obtain ⟨rest, hrest, rfl⟩ := Option.map_eq_some_iff.mp h
        obtain ⟨rest', hrest', rfl⟩ := Option.map_eq_some_iff.mp h'
        rw [ih hrest hrest']

/-! ## Completeness -/

/-- After the first page, an empty page is followed by empty pages only. -/
def NoGap (responses : List QueryOutput) : Prop :=
  ∀ page ∈ (responses.map QueryOutput.page).tail.dropWhile (!·.isEmpty), page = []

instance decidableNoGap : DecidablePred NoGap := fun responses =>
  inferInstanceAs (Decidable (∀ page ∈ (responses.map QueryOutput.page).tail.dropWhile
    (!·.isEmpty), page = []))

/-- Collecting ends with the items of all pages in order. -/
def Concatenates {β : Type} (next : BlockIterator → Option (Option β × BlockIterator))
    (extract : Attributes → β) (responses : List QueryOutput) : Prop :=
  ∃ calls, collect next calls (iterator responses) =
    some ((responses.flatMap QueryOutput.page).map extract)

/-- What is not collected are the pages from the next empty one on. -/
theorem flatten_eq_collected_append (page : List Attributes) (pages : List (List Attributes)) :
    (page :: pages).flatten =
      collected (page :: pages) ++ (pages.dropWhile (!·.isEmpty)).flatten := by
  rw [collected, List.append_assoc, ← List.flatten_append, List.takeWhile_append_dropWhile,
    List.flatten_cons]

theorem concatenates_iff {extract : Attributes → β} {responses : List QueryOutput}
    (hne : responses ≠ []) :
    Concatenates (BlockIterator.next extract) extract responses ↔ NoGap responses := by
  obtain ⟨response, responses, rfl⟩ := List.exists_cons_of_ne_nil hne
  have hleft : (iterator (response :: responses)).left =
      response.page :: responses.map QueryOutput.page := rfl
  have hcollect := collect_eq extract hleft (Nat.lt_succ_self _)
  have hall : (response :: responses).flatMap QueryOutput.page =
      collected (response.page :: responses.map QueryOutput.page) ++
        ((responses.map QueryOutput.page).dropWhile (!·.isEmpty)).flatten := by
    rw [← flatten_eq_collected_append, List.flatMap_def, List.map_cons]
  have hgap : NoGap (response :: responses) ↔
      ((responses.map QueryOutput.page).dropWhile (!·.isEmpty)).flatten = [] :=
    List.flatten_eq_nil_iff.symm
  rw [hgap]
  constructor
  · rintro ⟨calls, hcalls⟩
    -- What was collected is as long as the items of all pages.
    have hlength := congrArg List.length (collect_unique hcollect hcalls)
    rw [hall, List.length_map, List.length_map, List.length_append] at hlength
    exact List.eq_nil_of_length_eq_zero (by omega)
  · intro hnil
    refine ⟨_, hcollect.trans ?_⟩
    rw [hall, hnil, List.append_nil]

/-- **The pages are concatenated** exactly if no item comes after an empty page, the first page
apart. -/
theorem pages_concatenated_iff (prefixLen : Nat) {responses : List QueryOutput}
    (hne : responses ≠ []) :
    (Concatenates (DynamoDbKeyBlockIterator.next prefixLen) (extractKey prefixLen) responses ↔
      NoGap responses) ∧
    (Concatenates (DynamoDbKeyValueIterator.next prefixLen) (extractKeyValue prefixLen) responses ↔
      NoGap responses) ∧
    (Concatenates (DynamoDbKeyValueIteratorOwned.next prefixLen) (extractKeyValue prefixLen)
      responses ↔ NoGap responses) :=
  ⟨concatenates_iff hne, concatenates_iff hne, concatenates_iff hne⟩

/-- A page with one item, whose key is the prefix and one more byte. -/
def onePage (byte : UInt8) : QueryOutput :=
  ⟨some [⟨some (.b [7, byte]), some (.b [byte])⟩]⟩

/-- The first page is empty. -/
theorem pages_concatenated_after_empty :
    Concatenates (DynamoDbKeyBlockIterator.next 1) (extractKey 1)
      [⟨none⟩, onePage 1, onePage 2] :=
  (pages_concatenated_iff 1 (by decide)).1.mpr (by decide)

/-- An empty page between two others hides the second one. -/
theorem item_after_empty_page_lost :
    collect (DynamoDbKeyBlockIterator.next 1) 3 (iterator [onePage 1, ⟨none⟩, onePage 2]) =
      some [.ok [1]] ∧
    collect (DynamoDbKeyValueIterator.next 1) 3 (iterator [onePage 1, ⟨none⟩, onePage 2]) =
      some [.ok ([1], [1])] ∧
    collect (DynamoDbKeyValueIteratorOwned.next 1) 3
      (iterator [onePage 1, ⟨none⟩, onePage 2]) = some [.ok ([1], [1])] :=
  ⟨rfl, rfl, rfl⟩

end Linera.Views.DynamoDb
