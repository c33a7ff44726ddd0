import AmlExchange.Proofs.Decimal.Numerals
import AmlExchange.Proofs.Template.Unbound

/-!
# The names that a content mentions

A parameter is looked up under a name that stands in the content, letter by
letter.  In the numbered style it is the number without a sign and without
leading zeros, and these digits stand in the content too.  So a name that does
not occur in a content is not looked up there.
-/

namespace AmlExchange

namespace Template

namespace Placeholder

theorem infix_of_ofBody?
    {body : List Char} {raw : Bool} {placeholder : Placeholder}
    (found : ofBody? body raw = some placeholder) :
    placeholder.name.toList <:+: body := by
  unfold ofBody? at found
  split at found
  · cases found
    rw [String.toList_ofList]
  · cases found

theorem infix_of_ofIndex?
    {body : List Char} {placeholder : Placeholder}
    (found : ofIndex? body = some placeholder) :
    placeholder.name.toList <:+: body := by
  have digits {index : List Char} {number : Nat}
      (read : Decimal.readUnsigned? 10 index = some number)
      (within : index <:+: body) :
      (String.ofList (Decimal.writeNat number)).toList <:+: body := by
    rw [String.toList_ofList]
    exact (Decimal.suffix_of_readUnsigned? read).isInfix.trans within
  unfold ofIndex? at found
  dsimp only at found
  split at found
  · next number read =>
      split at found
      · cases found
        split at read
        · next before after cut =>
            apply digits read
            rw [Text.cutAt?_eq_some cut, List.append_assoc]
            exact (List.prefix_append _ _).isInfix
        · exact digits read List.infix_rfl
      · cases found
  · cases found

/-- The name of a placeholder stands in it. -/
theorem infix_of_read?
    {style : Style} {text : List Char} {placeholder : Placeholder}
    (found : read? style text = some placeholder) :
    placeholder.name.toList <:+: text := by
  have after {char : Char} {body : List Char}
      (within : placeholder.name.toList <:+: body) :
      placeholder.name.toList <:+: char :: body :=
    within.trans (List.suffix_cons _ _).isInfix
  have before {body : List Char}
      (within : placeholder.name.toList <:+: body.dropLast) :
      placeholder.name.toList <:+: body :=
    within.trans (List.dropLast_prefix body).isInfix
  unfold read? at found
  split at found
  · split at found
    · exact after (before (infix_of_ofBody? found))
    · exact after (infix_of_ofBody? found)
  · split at found
    · exact after (before (infix_of_ofIndex? found))
    · cases found
  · cases found

end Placeholder

/-- The names of the parameters of flat SQL stand in it. -/
theorem Sql.infix_of_names
    {template : List Char} {name : String} (member : name ∈ names template) :
    name.toList <:+: template := by
  obtain ⟨piece, isPiece, named⟩ := List.mem_filterMap.mp member
  have whole := source_pieces .code template
  cases piece with
  | copied text => cases named
  | parameter letters =>
      cases named
      have source :
          Piece.source (.parameter letters) <:+:
            (pieces .code template).flatMap Piece.source :=
        List.infix_of_mem_flatten (List.mem_map_of_mem isPiece)
      rw [String.toList_ofList]
      rw [whole] at source
      exact (List.suffix_cons _ _).isInfix.trans source

/-- A content that does not mention the one name that has a value has no
placeholder with a value. -/
theorem Setting.unbound_of_absent
    {setting : Setting} {name content : String}
    (alone : ∀ other, other ≠ name → setting.parameters.get? other = none)
    (absent : ¬ name.toList <:+: content.toList) :
    setting.Unbound content := by
  constructor
  · intro placeholder found
    apply alone
    rintro rfl
    exact absent (Placeholder.infix_of_read? found)
  · intro other member
    apply alone
    rintro rfl
    exact absent (Sql.infix_of_names member)

end Template

end AmlExchange
