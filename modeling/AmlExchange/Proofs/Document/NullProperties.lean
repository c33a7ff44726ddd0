import AmlExchange.Document.Property
import AmlExchange.Proofs.Document.Reachable

/-!
# Properties that are null

A property that is missing without a default, or marked null, has a null
neutral value, and whatever is read of that is none.  The reading as an identity
and the reference to an item start from what the element holds and not from its
neutral value: they give none only if nothing is left in the element that they
could take for an identity or for a reference (`readings_of_null`).
-/

namespace AmlExchange

namespace Locale

variable {α : Type}

/-- Whether a value is null or a blank text, which is read as none whatever
type is asked for. -/
def isVacant : Value → Bool
  | .null => true
  | .text text => (Text.trim text.toList).isEmpty
  | _ => false

theorem readText_eq_none_iff
    {target : String} {read : List Char → Option α} {text : String} :
    readText target read text = .ok none ↔
      (Text.trim text.toList).isEmpty = true := by
  unfold readText
  dsimp only
  split
  · next blank => exact iff_of_true rfl blank
  · next visible =>
      refine iff_of_false ?_ visible
      cases read (Text.trim text.toList) <;> exact nofun

/-- Only a vacant value is read as no identity. -/
theorem asGuid_eq_none_iff
    {value : Value} :
    asGuid value = .ok none ↔ isVacant value = true := by
  cases value with
  | null => exact iff_of_true rfl rfl
  | text text => exact readText_eq_none_iff
  | _ => exact iff_of_false nofun nofun

end Locale

namespace Document

open AmlExchange.Locale (isVacant)

namespace Property

variable {property : Property}

/-- Whether every reading that heeds the mark of null gives none, or the answer
that is at hand for that case. -/
structure ReadsNone (property : Property) : Prop where
  text : property.asText = none
  boolean : property.asBoolean = .ok none
  int : property.asInt = .ok none
  long : property.asLong = .ok none
  double : property.asDouble = .ok none
  dateTime : property.asDateTime = .ok none
  universal : property.asUniversal = .ok none
  zoned : property.asZoned = .ok none
  textOr : ∀ answer, property.asText.getD answer = answer
  booleanOr : ∀ answer, orElse property.asBoolean answer = .ok answer
  intOr : ∀ answer, orElse property.asInt answer = .ok answer
  longOr : ∀ answer, orElse property.asLong answer = .ok answer
  doubleOr : ∀ answer, orElse property.asDouble answer = .ok answer

theorem neutralValue_of_isNull
    (null : property.isNull = true) :
    property.neutralValue = .null := by
  obtain ⟨document, node, schemaDefault⟩ := property
  cases node with
  | some node =>
      rw [neutralValue]
      dsimp only
      rw [if_pos null]
  | none =>
      rw [isNull, Option.isNone_iff_eq_none] at null
      rw [neutralValue]
      dsimp only at null ⊢
      rw [null]

theorem readsNone_of_isNull
    (null : property.isNull = true) :
    property.ReadsNone := by
  have neutral := neutralValue_of_isNull null
  have text : property.asText = none := if_pos null
  have boolean : property.asBoolean = .ok none := by rw [asBoolean, neutral]; rfl
  have int : property.asInt = .ok none := by rw [asInt, neutral]; rfl
  have long : property.asLong = .ok none := by rw [asLong, neutral]; rfl
  have double : property.asDouble = .ok none := by rw [asDouble, neutral]; rfl
  exact
    { text, boolean, int, long, double
      dateTime := by rw [asDateTime, neutral]; rfl
      universal := by rw [asUniversal, neutral]; rfl
      zoned := by rw [asZoned, neutral]; rfl
      textOr := fun _ => by rw [text]; rfl
      booleanOr := fun _ => by rw [boolean]; rfl
      intOr := fun _ => by rw [int]; rfl
      longOr := fun _ => by rw [long]; rfl
      doubleOr := fun _ => by rw [double]; rfl }

/-- The content is read as an identity whether the property is null or not. -/
theorem asGuid_eq_none_iff :
    property.asGuid = .ok none ↔
      ∀ node ∈ property.node,
        isVacant (property.document.content node) = true := by
  obtain ⟨document, node, schemaDefault⟩ := property
  cases node with
  | some node =>
      refine Locale.asGuid_eq_none_iff.trans ⟨?_, fun all => all node rfl⟩
      rintro vacant _ ⟨⟩
      exact vacant
  | none => exact iff_of_true rfl nofun

end Property

/-- Whether a text refers to an item by itself: it is an identity and the type
is told beside it, or it names a file in the vault. -/
def NamesItem (type : Option String) (text : String) : Prop :=
  type.isSome = true ∧ Guid.isGuid text.toList = true ∨
    (Text.afterHead? Locale.vaultHead.toList text.toList).isSome = true

/-- Whether an element refers to an item: it holds one that has a type and an
identity or, where it holds none, its text refers to one. -/
inductive Refers (document : Document) (id : NodeId) : Prop where
  | held {item : NodeId} {rest : List NodeId}
      (first : document.items id = item :: rest)
      (typed : (document.typeName? item).isSome = true)
      (identified : (document.itemId? item).isSome = true)
  | told {text : String} (childless : document.items id = [])
      (valued : document.value? id = some text)
      (names :
        NamesItem (document.attribute? id AttributeName.type) text)

namespace Property

variable {document : Document} {id : NodeId}

theorem isSome_referenceToItem?
    {item : NodeId} :
    (referenceToItem? document item).isSome = true ↔
      (document.typeName? item).isSome = true ∧
        (document.itemId? item).isSome = true := by
  rw [referenceToItem?]
  cases document.typeName? item <;> cases document.itemId? item <;> simp

theorem isSome_referenceToFile?
    {text : String} :
    (referenceToFile? text).isSome = true ↔
      (Text.afterHead? Locale.vaultHead.toList text.toList).isSome = true := by
  rw [referenceToFile?, Option.isSome_map]

/-- The reference does not depend on whether the property is null. -/
theorem itemReference?_isSome_iff
    {schemaDefault : Option SchemaDefault} :
    (Property.mk document (some id) schemaDefault).itemReference?.isSome =
        true ↔
      document.Refers id := by
  rw [itemReference?, Option.bind_some, heldItem?]
  cases items : document.items id with
  | cons item rest =>
      refine isSome_referenceToItem?.trans ⟨?_, ?_⟩
      · exact fun both => .held items both.1 both.2
      · rintro (⟨first, typed, identified⟩ | ⟨childless, -, -⟩)
        · cases items.symm.trans first
          exact ⟨typed, identified⟩
        · cases items.symm.trans childless
  | nil =>
      have told :
          document.Refers id ↔
            ∃ text, document.value? id = some text ∧
              NamesItem (document.attribute? id AttributeName.type) text := by
        constructor
        · rintro (⟨first, -, -⟩ | ⟨-, valued, names⟩)
          · cases items.symm.trans first
          · exact ⟨_, valued, names⟩
        · rintro ⟨text, valued, names⟩
          exact .told items valued names
      rw [told]
      dsimp only [List.head?_nil]
      cases document.value? id with
      | none => simp
      | some text =>
          rw [Option.bind_some]
          cases document.attribute? id AttributeName.type with
          | none => simp [NamesItem, isSome_referenceToFile?]
          | some typeName =>
              by_cases guid : Guid.isGuid text.toList = true
              · simp [NamesItem, guid]
              · simp [NamesItem, guid, isSome_referenceToFile?]

theorem itemReference?_eq_none_iff
    {property : Property} :
    property.itemReference? = none ↔
      ∀ node ∈ property.node, ¬ property.document.Refers node := by
  obtain ⟨document, node, schemaDefault⟩ := property
  cases node with
  | some node =>
      rw [← Option.not_isSome_iff_eq_none, itemReference?_isSome_iff]
      exact ⟨by rintro silent _ ⟨⟩; exact silent, fun all => all node rfl⟩
  | none => exact iff_of_true rfl nofun

end Property

/-! ## Null properties of an item -/

/-- Whatever is read of a null property is none, but for two readings that do
not look at the mark: the one as an identity, which takes whatever content is
left, and the reference to an item, which takes whatever item, type or text is
left. -/
theorem readings_of_null
    (document : Document) (item : NodeId) (name : String)
    (null : (document.property item name).isNull = true) :
    let property := document.property item name
    property.ReadsNone ∧
      (property.asGuid = .ok none ↔
        ∀ node ∈ property.node, isVacant (document.content node) = true) ∧
      (property.itemReference? = none ↔
        ∀ node ∈ property.node, ¬ document.Refers node) := by
  have same : (document.property item name).document = document := by
    rw [property]
    split <;> rfl
  refine ⟨Property.readsNone_of_isNull null, ?_, ?_⟩
  · rw [Property.asGuid_eq_none_iff, same]
  · rw [Property.itemReference?_eq_none_iff, same]

/-- A property without its owner, but for what the reading left of him. -/
def itemWithoutOwner : Document :=
  [.createItem "Part" none,
    .setProperty 0 "owner"
      (.value (.text "A0D6B2F2E6A64C2B9F1B7E0F4B1E0A11")),
    .setAttribute 1 AttributeName.type "User",
    .setAttribute 1 AttributeName.isNull "1"].foldl afterCall
    (new ⟨"en", "en-US", 0, 0, firstMoment⟩)

theorem reachable_itemWithoutOwner :
    itemWithoutOwner.Reachable :=
  (Reachable.new _).calls _

theorem readings_of_null_owner :
    (itemWithoutOwner.property 0 "owner").isNull = true ∧
      (itemWithoutOwner.property 0 "owner").ReadsNone := by
  have null : (itemWithoutOwner.property 0 "owner").isNull = true := by
    decide +kernel
  exact ⟨null, (readings_of_null itemWithoutOwner 0 "owner" null).1⟩

/-- A null property is read as the identity that it was not cleared of, and
refers to the item of that identity. -/
theorem null_property_is_read :
    (¬ ∀ (document : Document) (item : NodeId) (name : String),
        document.Reachable →
          (document.property item name).isNull = true →
            (document.property item name).asGuid = .ok none) ∧
      ¬ ∀ (document : Document) (item : NodeId) (name : String),
        document.Reachable →
          (document.property item name).isNull = true →
            (document.property item name).itemReference? = none := by
  have null : (itemWithoutOwner.property 0 "owner").isNull = true := by
    decide +kernel
  constructor
  · intro reads
    have vacant :=
      Property.asGuid_eq_none_iff.mp
        (reads itemWithoutOwner 0 "owner" reachable_itemWithoutOwner null)
        1 (by decide +kernel)
    exact absurd vacant (by decide +kernel)
  · intro reads
    have same :=
      reads itemWithoutOwner 0 "owner" reachable_itemWithoutOwner null
    exact absurd same (by decide +kernel)

end Document

end AmlExchange
