import AmlExchange.Proofs.Markup.Enclosing
import AmlExchange.Request.Basic

/-!
# Several fragments in one request

The fragments of a request are joined to the content of one `AML` element.
Fragments that are readable on their own stay what they are in it: none of
them ends the element, takes anything from the next one or is read in another
way (`delivered_aml_of_fragments`).
-/

namespace AmlExchange.Request

open Markup (Event Spaced eventsOf isName)

theorem toList_wrapped
    (fragments : List String) :
    (wrapped fragments).toList =
      (Event.start "AML" [] false).markup ++
        fragments.flatMap String.toList ++ (Event.finish "AML").markup := by
  rw [wrapped, String.toList_append, String.toList_append,
    String.toList_join]
  rfl

theorem aml?_of_several
    {request : Request} (several : 2 ≤ request.fragments.length) :
    request.aml? = some (wrapped request.fragments) := by
  unfold aml?
  split
  · next none => simp [none] at several
  · next one => simp [one] at several
  · rfl

/-- Several fragments that are readable on their own are read one after the
other within the `AML` element of a request, with no more than spacing added
outside of their elements. -/
theorem delivered_aml_of_fragments
    {request : Request} (several : 2 ≤ request.fragments.length)
    (begun : ∀ fragment ∈ request.fragments,
      fragment.toList.head? = some '<')
    (readable : ∀ fragment ∈ request.fragments, ∃ place,
      (Markup.read .unlimited fragment).ending = .ok place) :
    ∃ template runs,
      request.aml? = some template ∧
        List.Forall₂ (fun fragment run => Spaced [] (eventsOf fragment) run)
          request.fragments runs ∧
          (Markup.read .unlimited template).Delivered
            (.start "AML" [] false :: runs.flatten ++ [.finish "AML"]) := by
  have lawful : isName "AML".toList = true := by decide
  obtain ⟨runs, spaced, delivered⟩ :=
    Markup.Reader.delivered_within_element lawful begun readable
      (toList_wrapped request.fragments)
  exact ⟨_, runs, aml?_of_several several, spaced, delivered⟩

/-- Two fragments, the first with spacing between what it consists of and the
second with an end tag that is none. -/
def twoFragments : Request :=
  (ofAml "<Item type='Part' />\n<!--<AML>-->").addAml
    "<?go?><Item><name><![CDATA[</AML>]]> &lt;</name></Item>"

theorem delivered_aml_of_twoFragments :
    2 ≤ twoFragments.fragments.length ∧
      ∃ template runs,
        twoFragments.aml? = some template ∧
          List.Forall₂
            (fun fragment run => Spaced [] (eventsOf fragment) run)
            twoFragments.fragments runs ∧
            (Markup.read .unlimited template).Delivered
              (.start "AML" [] false :: runs.flatten ++ [.finish "AML"]) := by
  have readable : ∀ fragment ∈ twoFragments.fragments,
      (Markup.read .unlimited fragment).ending.toOption.isSome = true := by
    decide +kernel
  refine ⟨by decide, delivered_aml_of_fragments (by decide) ?_ ?_⟩
  · decide
  · intro fragment member
    have ended := readable fragment member
    cases final : (Markup.read .unlimited fragment).ending with
    | ok place => exact ⟨place, rfl⟩
    | error fault => simp [final, Except.toOption] at ended

end AmlExchange.Request
