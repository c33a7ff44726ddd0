import AmlExchange.Proofs.Markup.Spelling

/-!
# What of a text occurs in its events

The names of attributes are taken from a text as they stand there.  So a text
that does not contain a word has no attribute with that word in its name.
-/

namespace AmlExchange.Markup

namespace Reader

open Input

theorem infix_of_leads
    {input next : Input} {stretch word : List Char}
    (leads : Leads input next stretch) (occurs : word <:+: next.rest) :
    word <:+: input.rest := by
  rw [leads.1]
  exact occurs.trans (List.suffix_append _ _).isInfix

theorem infix_of_name
    {input next : Input} {name : String}
    (read : input.name = .ok (name, next)) :
    name.toList <:+: input.rest := by
  rw [(leads_name read).1.1]
  exact (List.prefix_append _ _).isInfix

theorem infix_of_assignment
    {input next : Input} {field : String × String}
    (read : input.assignment = .ok (field, next)) :
    field.1.toList <:+: input.rest := by
  simp only [Input.assignment, bind, Except.bind] at read
  split at read
  · cases read
  · next named nameRead =>
      split at read
      · cases read
      · split at read
        · cases read
        · cases read
          exact infix_of_name nameRead

theorem infix_of_tagPart
    {input next : Input} {name value : String}
    (read : tagPart input = .ok (.field name value next)) :
    name.toList <:+: input.rest := by
  simp only [tagPart] at read
  split at read
  · cases read
  · split at read
    · cases read
    · split at read
      · cases read
      · next assigned =>
          cases read
          exact
            infix_of_leads (leads_dropWhile input Text.isSpacing)
              (infix_of_assignment assigned)

theorem infix_of_attributes
    {input next : Input} {found all : List (String × String)}
    (read : attributes input found = .ok (all, next)) :
    ∀ field ∈ all, field ∈ found ∨ field.1.toList <:+: input.rest := by
  fun_induction attributes input found with
  | case1 => cases read
  | case2 =>
      cases read
      exact fun field member => .inl member
  | case3 => cases read
  | case4 input found name value next' fieldRead fresh ih =>
      intro field member
      obtain ⟨stretch, -, leads⟩ := leads_tagPart_field fieldRead
      rcases ih read field member with before | later
      · rcases List.mem_append.mp before with earlier | here
        · exact .inl earlier
        · rw [List.mem_singleton.mp here]
          exact .inr (infix_of_tagPart fieldRead)
      · exact .inr (infix_of_leads leads later)

theorem infix_of_startTag
    {reader next : Reader} {name : String}
    {attributes : List (String × String)} {empty : Bool}
    (read :
      reader.startTag = .ok (.delivered (.start name attributes empty) next)) :
    ∀ field ∈ attributes, field.1.toList <:+: reader.input.rest := by
  simp only [startTag, bind, Except.bind] at read
  split at read
  · cases read
  · next named nameRead =>
      split at read
      · cases read
      · next attributed attributesRead =>
          have before :=
            (leads_drop reader.input 1).trans (leads_name nameRead).1
          have occurs :
              ∀ field ∈ attributed.1,
                field.1.toList <:+: reader.input.rest := by
            intro field member
            rcases infix_of_attributes attributesRead field member with
              none | later
            · cases none
            · exact infix_of_leads before later
          split at read
          · split at read
            · cases read
            · cases read
              exact occurs
          · split at read
            · cases read
            · split at read
              · cases read
              · cases read
                exact occurs

/-- The names of all attributes that are read occur in the text. -/
theorem infix_of_run
    {reader : Reader} {name : String} {attributes : List (String × String)}
    {empty : Bool}
    (member :
      Event.start name attributes empty ∈ reader.run.events.map Prod.fst) :
    ∀ field ∈ attributes, field.1.toList <:+: reader.input.rest := by
  fun_induction Reader.run reader with
  | case1 => cases member
  | case2 => cases member
  | case3 reader next read ih =>
      obtain ⟨stretch, -, leads⟩ := movesTo_step read rfl
      exact fun field isField =>
        infix_of_leads leads (ih member field isField)
  | case4 reader event next read ih =>
      obtain ⟨stretch, -, leads⟩ := movesTo_step read rfl
      rw [Stream.cons, List.map_cons, List.mem_cons] at member
      rcases member with rfl | later
      · exact infix_of_startTag (startTag_of_delivered read).1
      · exact fun field isField =>
          infix_of_leads leads (ih later field isField)

end Reader

theorem infix_of_read
    {limits : Limits} {text name : String}
    {attributes : List (String × String)} {empty : Bool}
    (member :
      Event.start name attributes empty ∈
        (read limits text).events.map Prod.fst) :
    ∀ field ∈ attributes, field.1.toList <:+: text.toList := by
  unfold read at member
  split at member
  · cases member
  · exact Reader.infix_of_run member

theorem infix_localName
    (name : String) :
    (localName name).toList <:+: name.toList := by
  unfold localName
  split
  · next before after found =>
      rw [String.toList_ofList, Text.cutAt?_eq_some found]
      exact (List.suffix_append _ _).isInfix
  · exact List.infix_rfl

/-- A text that does not contain a word has no attribute of that name. -/
theorem localName_ne_of_absent
    {word text : String}
    (absent : Text.contains word.toList text.toList = false)
    {limits : Limits} {name : String} {attributes : List (String × String)}
    {empty : Bool}
    (member :
      Event.start name attributes empty ∈
        (read limits text).events.map Prod.fst) :
    ∀ field ∈ attributes, localName field.1 ≠ word := by
  rw [Text.contains, Option.isSome_eq_false_iff, Option.isNone_iff_eq_none,
    Text.cutAt?_eq_none_iff] at absent
  rintro field isField rfl
  exact
    absent ((infix_localName field.1).trans (infix_of_read member field isField))

end AmlExchange.Markup
