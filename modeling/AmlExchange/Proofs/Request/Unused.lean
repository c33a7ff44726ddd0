import AmlExchange.Proofs.Document.ReadElements
import AmlExchange.Proofs.Markup.Bounds
import AmlExchange.Proofs.Sql.Stages
import AmlExchange.Proofs.Template.Unused
import AmlExchange.Request.Basic

/-!
# Parameters that a request does not use

A request without parameters is sent as it was given.  With a parameter its
template is gone through, even if the template does not mention the parameter.
The outcome is another text, but reads as the same trees: only texts of nothing
but spacing may be missing (`normalize_unused`).  This takes a template whose
values do not mention the parameter once their references are expanded, and in
which filling finds nothing to refuse or to leave out without a parameter.
-/

namespace AmlExchange

open Markup (Event Limits)
open Template (Mode Substitution)

namespace Template

/-- The events that are left of a template that uses no parameter. -/
def spared (mode : Mode) (events : List Event) : List Event :=
  match mode with
  | .aml => withoutSpacing [] events
  | .sql => events

namespace Substitution

variable {substitution : Substitution} {locale : Locale} {template : String}

/-- Whether a template is filled, and the outcome reads as the trees of some
events. -/
def FillsTo (substitution : Substitution) (locale : Locale) (stored : Bool)
    (template : String) (events : List Event) : Prop :=
  ∃ output,
    (substitution.fill locale none template).2.text = .ok output ∧
    ∀ size, (0 < size → output.utf8ByteSize ≤ size) →
      Document.parse ⟨Limits.standard.depth, size⟩ locale stored output =
        .ok (Document.ofTrees locale stored (Document.treesOf events))

/-- A template of flat SQL that mentions no parameter stays as it is. -/
theorem text_fill_of_unbound
    (flat : substitution.isAml template = false)
    (unbound : ∀ name ∈ Sql.names template.toList,
      substitution.parameters.get? name = none) :
    (substitution.fill locale none template).2.text = .ok template := by
  rw [text_fill_of_flat flat, Sql.replace_of_unbound unbound,
    String.ofList_toList]
  rfl

/-- So what reads as some trees reads as the same trees when it is filled. -/
theorem fillsTo_of_unbound
    (flat : substitution.isAml template = false)
    (unbound : ∀ name ∈ Sql.names template.toList,
      substitution.parameters.get? name = none)
    {place : Text.Position}
    (ended : (Markup.read .standard template).ending = .ok place)
    (stored : Bool) :
    substitution.FillsTo locale stored template
      ((Markup.read .standard template).events.map Prod.fst) := by
  refine ⟨template, text_fill_of_unbound flat unbound, fun size small => ?_⟩
  have same :
      Markup.read ⟨Limits.standard.depth, size⟩ template =
        Markup.read .standard template :=
    Markup.read_of_small small (Markup.small_of_read ended)
  have delivered :
      (Markup.read ⟨Limits.standard.depth, size⟩ template).Delivered
        ((Markup.read .standard template).events.map Prod.fst) := by
    rw [same]
    exact ⟨⟨place, ended⟩, rfl⟩
  exact Document.parse_of_delivered delivered locale stored

/-- An AML template that mentions no parameter is written less spacing. -/
theorem exists_text_fill_of_steady
    (aml : substitution.isAml template = true) {place : Text.Position}
    (ended : (Markup.read .standard template).ending = .ok place)
    (dateless : ∀ event ∈ (Markup.read .standard template).events.map Prod.fst,
      Walk.Dateless event)
    (unbound : ∀ event ∈ (Markup.read .standard template).events.map Prod.fst,
      ∀ value ∈ values event,
        (substitution.setting locale).Unbound value)
    (steady : Walk.start.SteadyAll substitution.style
      ((Markup.read .standard template).events.map Prod.fst)) :
    ∃ output,
      (substitution.fill locale none template).2.text = .ok output ∧
        ∀ size, (0 < size → output.utf8ByteSize ≤ size) →
          (Markup.read ⟨Limits.standard.depth, size⟩ output).Delivered
            (Markup.normalForm
              (withoutSpacing []
                ((Markup.read .standard template).events.map Prod.fst))) := by
  obtain ⟨alike, last, walked⟩ :=
    @Walk.script_of_steady (substitution.setting locale) .start _ dateless
      unbound rfl steady
  obtain ⟨nested, lawful⟩ := Markup.nested_read ended
  have nestedLess := nested_withoutSpacing nested []
  obtain ⟨done, made⟩ := fillAml_of_alike ended walked nestedLess alike
  obtain ⟨result, output⟩ := fill_of_isAml aml locale none
  have filled :
      (substitution.fill locale none template).2.text =
        .ok
          (String.ofList
            (Markup.markupAll
              (Markup.normalForm
                (withoutSpacing []
                  ((Markup.read .standard template).events.map
                    Prod.fst))))) := by
    rw [Filled.text, result, done, output, made]
    rfl
  refine ⟨_, filled, fun size small => ?_⟩
  exact
    @Markup.delivered_of_shallow _ nestedLess
      (forall_mem_withoutSpacing lawful []) ⟨Limits.standard.depth, size⟩
      (shallow_withoutSpacing (Markup.shallow_read .standard template) [])
      _ rfl small

/-- So it reads as the trees that it has without the spacing. -/
theorem fillsTo_of_steady
    (aml : substitution.isAml template = true) {place : Text.Position}
    (ended : (Markup.read .standard template).ending = .ok place)
    (dateless : ∀ event ∈ (Markup.read .standard template).events.map Prod.fst,
      Walk.Dateless event)
    (unbound : ∀ event ∈ (Markup.read .standard template).events.map Prod.fst,
      ∀ value ∈ values event,
        (substitution.setting locale).Unbound value)
    (steady : Walk.start.SteadyAll substitution.style
      ((Markup.read .standard template).events.map Prod.fst))
    (stored : Bool) :
    substitution.FillsTo locale stored template
      (withoutSpacing []
        ((Markup.read .standard template).events.map Prod.fst)) := by
  obtain ⟨output, filled, delivered⟩ :=
    exists_text_fill_of_steady aml ended dateless unbound steady
  refine ⟨output, filled, fun size small => ?_⟩
  rw [Document.parse_of_delivered (delivered size small),
    Document.treesOf_normalForm]

end Substitution

end Template

namespace Request

section

variable {request : Request} {locale : Locale}
  (bare : request.substitution.parameters.isEmpty = true)

include bare

/-- A request without parameters is sent as it was given. -/
theorem normalize_of_bare
    (undated :
      Text.contains AttributeName.origDateRange.toList request.aml.toList =
        false) :
    (request.normalize locale none).2.text = .ok request.aml := by
  have verbatim : request.needsFilling request.aml = false := by
    rw [needsFilling, bare, undated]
    rfl
  rw [normalize]
  simp only [verbatim]
  rfl

/-- The first parameter of a request is its only one. -/
theorem get?_setParameter_of_ne
    {name other : String} (differs : other ≠ name) (value : Value) :
    (request.setParameter name value).substitution.parameters.get? other =
      none := by
  have nothing : request.substitution.parameters.entries = [] :=
    List.isEmpty_iff.mp bare
  rw [setParameter, Substitution.bind, Fields.get?_insert, if_neg differs.symm,
    Fields.get?, nothing]
  rfl

/-- With it the template of the request is filled. -/
theorem normalize_setParameter
    (name : String) (value : Value) :
    ((request.setParameter name value).normalize locale none).2 =
      ((request.setParameter name value).substitution.fill locale none
        request.aml).2 := by
  have present :
      (Fields.write name value
        request.substitution.parameters.entries).isEmpty = false := by
    rw [List.isEmpty_iff.mp bare]
    rfl
  have used :
      (request.setParameter name value).needsFilling request.aml = true := by
    rw [needsFilling, Bool.or_eq_true, Bool.not_eq_true']
    exact .inl present
  rw [normalize]
  exact congrArg Prod.snd (if_pos used)

/-- A parameter that a request in flat SQL does not mention. -/
theorem fillsTo_setParameter_sql
    (mode : request.substitution.mode = .sql) {place : Text.Position}
    (ended : (Markup.read .standard request.aml).ending = .ok place)
    {name : String} (absent : ¬ name.toList <:+: request.aml.toList)
    (value : Value) (stored : Bool) :
    (request.setParameter name value).substitution.FillsTo locale stored
      request.aml
      ((Markup.read .standard request.aml).events.map Prod.fst) := by
  have chosen : (request.setParameter name value).substitution.mode = .sql :=
    mode
  refine Substitution.fillsTo_of_unbound ?_ ?_ ended stored
  · rw [Substitution.isAml, chosen]
    exact Bool.and_false _
  · intro other member
    apply get?_setParameter_of_ne bare
    rintro rfl
    exact absent (Template.Sql.infix_of_names member)

/-- A parameter that a request in AML does not mention. -/
theorem fillsTo_setParameter_aml
    (mode : request.substitution.mode = .aml)
    (tagged : request.aml.toList.head? = some '<')
    (undated :
      Text.contains AttributeName.origDateRange.toList request.aml.toList =
        false)
    {place : Text.Position}
    (ended : (Markup.read .standard request.aml).ending = .ok place)
    {name : String}
    (hidden :
      ∀ event ∈ (Markup.read .standard request.aml).events.map Prod.fst,
        ∀ content ∈ Template.values event,
          ¬ name.toList <:+: content.toList)
    (steady : Template.Walk.start.SteadyAll request.substitution.style
      ((Markup.read .standard request.aml).events.map Prod.fst))
    (value : Value) (stored : Bool) :
    (request.setParameter name value).substitution.FillsTo locale stored
      request.aml
      (Template.withoutSpacing []
        ((Markup.read .standard request.aml).events.map Prod.fst)) := by
  have aml :
      (request.setParameter name value).substitution.isAml request.aml =
        true := by
    apply Substitution.isAml_of_head? _ mode
    obtain ⟨rest, shape⟩ := List.head?_eq_some_iff.mp tagged
    rw [shape, Text.trimLeft, List.dropWhile_cons_of_neg (by decide)]
    rfl
  apply
    Substitution.fillsTo_of_steady aml ended
      (Template.Walk.dateless_of_absent undated) _ steady
  intro event member content within
  apply Template.Setting.unbound_of_absent _ (hidden event member content within)
  exact fun other differs => get?_setParameter_of_ne bare differs value

end

/-- A parameter that a template does not mention changes its text, but not the
trees that it reads as, except for texts of nothing but spacing. -/
theorem normalize_unused
    {request : Request}
    (bare : request.substitution.parameters.isEmpty = true)
    (tagged : request.aml.toList.head? = some '<')
    (undated :
      Text.contains AttributeName.origDateRange.toList request.aml.toList =
        false)
    {locale : Locale} {stored : Bool} {original : Document}
    (parsed : Document.parse .standard locale stored request.aml =
      .ok original)
    {name : String} (absent : ¬ name.toList <:+: request.aml.toList)
    (hidden :
      ∀ event ∈ (Markup.read .standard request.aml).events.map Prod.fst,
        ∀ content ∈ Template.values event,
          ¬ name.toList <:+: content.toList)
    (steady : Template.Walk.start.SteadyAll request.substitution.style
      ((Markup.read .standard request.aml).events.map Prod.fst))
    (value : Value) :
    (request.normalize locale none).2.text = .ok request.aml ∧
    ∃ output,
      ((request.setParameter name value).normalize locale none).2.text =
        .ok output ∧
      ∀ size, (0 < size → output.utf8ByteSize ≤ size) →
        Document.parse ⟨Limits.standard.depth, size⟩ locale stored output =
          .ok
            (Document.ofTrees locale stored
              (Document.treesOf
                (Template.spared request.substitution.mode
                  ((Markup.read .standard request.aml).events.map
                    Prod.fst)))) := by
  obtain ⟨place, ended⟩ := Document.delivered_of_parse parsed
  refine ⟨normalize_of_bare bare undated, ?_⟩
  rw [normalize_setParameter bare]
  cases mode : request.substitution.mode with
  | aml =>
      exact
        fillsTo_setParameter_aml bare mode tagged undated ended hidden steady
          value stored
  | sql => exact fillsTo_setParameter_sql bare mode ended absent value stored

/-- A part with a blank and with a placeholder. -/
def namedPart : String :=
  "<Item type='Part'> <name>@b!</name></Item>"

/-- A part whose placeholder is not for the parameter. -/
theorem normalize_unused_of_part :
    ∃ output,
      (((ofAml namedPart).setParameter "q" (.text "v")).normalize
        Document.english none).2.text = .ok output ∧
      Document.parse ⟨Limits.standard.depth, 0⟩ Document.english true output =
        .ok
          (Document.ofTrees Document.english true
            (Document.treesOf
              [.start "Item" [("type", "Part")] false,
                .start "name" [] false, .text "@b!", .finish "name",
                .finish "Item"])) := by
  have events :
      (Markup.read .standard (ofAml namedPart).aml).events.map Prod.fst =
        [.start "Item" [("type", "Part")] false, .text " ",
          .start "name" [] false, .text "@b!", .finish "name",
          .finish "Item"] := by
    decide +kernel
  have complete :
      (Markup.read .standard (ofAml namedPart).aml).ending.toOption =
        some ⟨42, 1, 43⟩ := by
    decide +kernel
  have parsed :=
    Document.parse_of_delivered
      ⟨⟨_, eq_ok_of_toOption complete⟩, events⟩ Document.english true
  obtain ⟨-, output, made, reads⟩ :=
    @normalize_unused (ofAml namedPart) rfl rfl (by decide +kernel) _ _ _
      parsed "q" (by decide +kernel) (by rw [events]; decide +kernel)
      (by rw [events]; decide +kernel) (.text "v")
  refine ⟨output, made, (reads 0 nofun).trans ?_⟩
  rw [events]
  rfl

/-- Whether a parameter that a template does not mention may be set and
changes no tree, except that texts of nothing but spacing may be missing. -/
def Indifferent (template name : String) : Prop :=
  template.toList.head? = some '<' →
  Text.contains AttributeName.origDateRange.toList template.toList = false →
  ∀ original events,
    Document.parse .standard Document.english true template = .ok original →
    (Markup.read .standard template).events.map Prod.fst = events →
    ¬ name.toList <:+: template.toList →
    ∀ value, ∃ output remaining,
      (((ofAml template).setParameter name value).normalize Document.english
        none).2.text = .ok output ∧
      (Template.withoutSpacing [] events).Sublist remaining ∧
      remaining.Sublist events ∧
      Document.parse .standard Document.english true output =
        .ok
          (Document.ofTrees Document.english true
            (Document.treesOf remaining))

theorem not_indifferent_of_value
    {template name output : String} {place : Text.Position}
    {events : List Event}
    (tagged : template.toList.head? = some '<')
    (undated :
      Text.contains AttributeName.origDateRange.toList template.toList =
        false)
    (complete : (Markup.read .standard template).ending.toOption = some place)
    (read : (Markup.read .standard template).events.map Prod.fst = events)
    (visible : Template.withoutSpacing [] events = events)
    (absent : ¬ name.toList <:+: template.toList)
    (made :
      (((ofAml template).setParameter name (.text "v")).normalize
        Document.english none).2.text.toOption = some output)
    (differs :
      ((Document.parse .standard Document.english true output).toOption.map
        fun document => document.value? 0) ≠
      some
        ((Document.ofTrees Document.english true
          (Document.treesOf events)).value? 0)) :
    ¬ Indifferent template name := by
  intro same
  have parsed :=
    Document.parse_of_delivered
      ⟨⟨_, eq_ok_of_toOption complete⟩, read⟩ Document.english true
  obtain ⟨other, remaining, filled, least, most, reads⟩ :=
    same tagged undated _ events parsed read absent (.text "v")
  rw [filled] at made
  cases made
  rw [visible] at least
  obtain rfl := least.antisymm most
  rw [reads] at differs
  exact differs rfl

/-- Markup to be inserted unescaped into an attribute is refused, parentheses
around a list are left out, and a name may be written with references. -/
theorem unused_parameter_matters :
    ¬ Indifferent "<x a='@b!'/>" "q" ∧
      ¬ Indifferent "<x condition='in'>(@b)</x>" "q" ∧
      ¬ Indifferent "<x>@&#113;</x>" "q" := by
  refine ⟨fun same => ?_, ?_, ?_⟩
  · have complete :
        (Markup.read .standard "<x a='@b!'/>").ending.toOption =
          some ⟨12, 1, 13⟩ := by
      decide +kernel
    have parsed :=
      Document.parse_of_delivered
        ⟨⟨_, eq_ok_of_toOption complete⟩, rfl⟩ Document.english true
    obtain ⟨output, remaining, filled, -⟩ :=
      same rfl (by decide +kernel) _ _ parsed rfl (by decide +kernel)
        (.text "v")
    have refused :
        (((ofAml "<x a='@b!'/>").setParameter "q" (.text "v")).normalize
          Document.english none).2.text.toOption = none := by
      decide +kernel
    rw [filled] at refused
    cases refused
  · have events :
        (Markup.read .standard
            "<x condition='in'>(@b)</x>").events.map Prod.fst =
          [.start "x" [("condition", "in")] false, .text "(@b)",
            .finish "x"] := by
      decide +kernel
    have complete :
        (Markup.read .standard
          "<x condition='in'>(@b)</x>").ending.toOption =
            some ⟨26, 1, 27⟩ := by
      decide +kernel
    have output :
        (((ofAml "<x condition='in'>(@b)</x>").setParameter "q"
          (.text "v")).normalize Document.english none).2.text.toOption =
            some "<x condition=\"in\">@b</x>" := by
      decide +kernel
    exact
      not_indifferent_of_value rfl (by decide +kernel) complete events
        (by decide +kernel) (by decide +kernel) output (by decide +kernel)
  · have events :
        (Markup.read .standard "<x>@&#113;</x>").events.map Prod.fst =
          [.start "x" [] false, .text "@q", .finish "x"] := by
      decide +kernel
    have complete :
        (Markup.read .standard "<x>@&#113;</x>").ending.toOption =
          some ⟨14, 1, 15⟩ := by
      decide +kernel
    have output :
        (((ofAml "<x>@&#113;</x>").setParameter "q"
          (.text "v")).normalize Document.english none).2.text.toOption =
            some "<x>v</x>" := by
      decide +kernel
    exact
      not_indifferent_of_value rfl (by decide +kernel) complete events
        (by decide +kernel) (by decide +kernel) output (by decide +kernel)

end Request

end AmlExchange
