import AmlExchange.Proofs.Template.FilledItems
import AmlExchange.Request.Basic

/-!
# The items that a request remembers

A request remembers the number of items of the AML template that it has filled
last.  No other call changes the number (`itemCount_run`).  So it is the number
of items of the text that a normalization gives if the normalization fills the
template, and is left over from before if the template is sent as it is
(`itemCount_after_normalize`).
-/

namespace AmlExchange.Request

open Template (Mode Style Substitution)
open Text (Position)

/-- A call on a request that changes its template, its parameters or the way
they are filled in, or fills them in. -/
inductive Operation where
  | setAml (aml : String)
  | addAml (aml : String)
  | clearAml
  | setArguments (values : List Value)
  | setParameter (name : String) (value : Value)
  | setMode (mode : Mode)
  | setStyle (style : Style)
  | normalize (locale : Locale) (room : Option Nat)

/-- The request after a call. -/
def Operation.apply (request : Request) : Operation → Request
  | .setAml aml => request.setAml aml
  | .addAml aml => request.addAml aml
  | .clearAml => request.clearAml
  | .setArguments values => request.setArguments values
  | .setParameter name value => request.setParameter name value
  | .setMode mode =>
      { request with substitution := { request.substitution with mode } }
  | .setStyle style =>
      { request with substitution := { request.substitution with style } }
  | .normalize locale room => (request.normalize locale room).1

/-- The request after some calls. -/
def run (request : Request) (operations : List Operation) : Request :=
  operations.foldl Operation.apply request

/-- Whether a call fills an AML template. -/
def Operation.counts (request : Request) : Operation → Bool
  | .normalize _ _ =>
      request.needsFilling request.aml &&
        request.substitution.isAml request.aml
  | _ => false

/-- Whether none of some calls fills an AML template. -/
def Idle (request : Request) : List Operation → Prop
  | [] => True
  | operation :: rest =>
      operation.counts request = false ∧ Idle (operation.apply request) rest

theorem itemCount_bindIndexedFrom
    (values : List Value) (substitution : Substitution) (index : Nat) :
    (substitution.bindIndexedFrom index values).itemCount =
      substitution.itemCount := by
  induction values generalizing substitution index with
  | nil => rfl
  | cons value rest ih => exact ih ..

/-- Flat SQL has no items to remember. -/
theorem fill_of_flat
    {substitution : Substitution} {template : String}
    (flat : substitution.isAml template = false) (locale : Locale)
    (room : Option Nat) :
    (substitution.fill locale room template).1 = substitution := by
  rw [Substitution.fill]
  split
  · rfl
  · rw [if_neg (by simp [flat])]

/-- A call that fills no AML template leaves the number of items as it is. -/
theorem itemCount_apply
    {request : Request} {operation : Operation}
    (idle : operation.counts request = false) :
    (operation.apply request).substitution.itemCount =
      request.substitution.itemCount := by
  cases operation with
  | setAml | addAml | clearAml | setParameter | setMode | setStyle => rfl
  | setArguments values => exact itemCount_bindIndexedFrom ..
  | normalize locale room =>
      show (request.normalize locale room).1.substitution.itemCount = _
      rw [normalize]
      split
      · next filling =>
          have flat : request.substitution.isAml request.aml = false := by
            simpa [Operation.counts, filling] using idle
          exact congrArg Substitution.itemCount (fill_of_flat flat locale room)
      · split <;> rfl

theorem run_append
    (request : Request) (first second : List Operation) :
    request.run (first ++ second) = (request.run first).run second :=
  List.foldl_append

/-- Calls that fill no AML template leave the number of items as it is. -/
theorem itemCount_run
    {request : Request} {operations : List Operation}
    (idle : Idle request operations) :
    (request.run operations).substitution.itemCount =
      request.substitution.itemCount := by
  induction operations generalizing request with
  | nil => rfl
  | cons operation rest ih =>
      exact (ih idle.2).trans (itemCount_apply idle.1)

theorem normalize_of_filling
    {request : Request} (filling : request.needsFilling request.aml = true)
    (locale : Locale) (room : Option Nat) :
    (request.normalize locale room).1.substitution =
        (request.substitution.fill locale room request.aml).1 ∧
      (request.normalize locale room).2 =
        (request.substitution.fill locale room request.aml).2 := by
  rw [normalize]
  simp only [filling, if_true]
  exact ⟨trivial, trivial⟩

/-- After an AML template has been normalized, and up to the next one that is
filled, a request remembers the items of the text, if the template was filled,
and what it remembered before if not. -/
theorem itemCount_after_normalize
    {start request : Request} {before : List Operation}
    (reached : start.run before = request)
    (aml : request.substitution.isAml request.aml = true)
    (escaped : ∀ content,
      .text content ∈
          (Markup.read .standard request.aml).events.map Prod.fst →
        Template.isRaw request.substitution.style content = false)
    {locale : Locale} {output : String}
    (normalized : (request.normalize locale none).2.text = .ok output)
    {place : Position}
    (readable : (Markup.read .unlimited output).ending = .ok place)
    {later : List Operation}
    (idle : Idle (request.normalize locale none).1 later) :
    (start.run
        (before ++ .normalize locale none :: later)).substitution.itemCount =
      if request.needsFilling request.aml then
        Document.outerItemsAll
          (Document.treesOf
            ((Markup.read .unlimited output).events.map Prod.fst))
      else request.substitution.itemCount := by
  have onward :
      (start.run (before ++ .normalize locale none :: later)) =
        (request.normalize locale none).1.run later := by
    rw [run_append, reached]
    rfl
  rw [onward, itemCount_run idle]
  split
  · next filling =>
      obtain ⟨remembered, filled⟩ := normalize_of_filling filling locale none
      rw [filled] at normalized
      rw [remembered]
      exact Substitution.itemCount_fill aml escaped normalized readable
  · next verbatim =>
      exact
        @itemCount_apply request (.normalize locale none)
          (by simp [Operation.counts, verbatim])

/-- Two parts of a type that is a parameter. -/
def twoParts : String :=
  "<AML><Item type='@0' /><Item type='@0' /></AML>"

/-- Two parts, remembered until the next AML template is filled. -/
theorem itemCount_after_normalize_of_parts :
    ∃ output,
      (((ofAml twoParts).setArguments [.text "Part"]).normalize
          Substitution.inJune none).2.text = .ok output ∧
      (Request.empty.run
          ([.setAml twoParts, .setArguments [.text "Part"]] ++
            .normalize Substitution.inJune none ::
              [.setMode .sql, .normalize Substitution.inJune none,
                .clearAml])).substitution.itemCount =
        Document.outerItemsAll
          (Document.treesOf
            ((Markup.read .unlimited output).events.map Prod.fst)) := by
  have events :
      (Markup.read .standard twoParts).events.map Prod.fst =
        [.start "AML" [] false, .start "Item" [("type", "@0")] true,
          .start "Item" [("type", "@0")] true, .finish "AML"] := by
    decide +kernel
  have escaped (content : String)
      (member :
        .text content ∈
          (Markup.read .standard twoParts).events.map Prod.fst) :
      Template.isRaw .named content = false := by
    rw [events] at member
    simp at member
  have normalized :
      (((ofAml twoParts).setArguments [.text "Part"]).normalize
          Substitution.inJune none).2.text.toOption =
        some
          "<AML><Item type=\"Part\" /><Item type=\"Part\" /></AML>" := by
    decide +kernel
  have readable :
      (Markup.read .unlimited
          "<AML><Item type=\"Part\" /><Item type=\"Part\" /></AML>").ending.toOption =
        some ⟨51, 1, 52⟩ := by
    decide +kernel
  have counted :=
    @itemCount_after_normalize .empty _
      [.setAml twoParts, .setArguments [.text "Part"]] rfl (by decide +kernel)
      escaped _ _ (eq_ok_of_toOption normalized) _
      (eq_ok_of_toOption readable)
      [.setMode .sql, .normalize Substitution.inJune none, .clearAml]
      ⟨rfl, by decide +kernel, rfl, trivial⟩
  exact
    ⟨_, eq_ok_of_toOption normalized,
      counted.trans (if_pos (by decide +kernel))⟩

/-- A template that is sent as it is leaves the number of items as it is. -/
theorem items_sent_verbatim_are_not_counted :
    ¬ ∀ (operations : List Operation) (locale : Locale) (output : String)
        (place : Position),
      (Request.empty.run operations).substitution.isAml
          (Request.empty.run operations).aml = true →
      (∀ content,
        .text content ∈
            (Markup.read .standard
              (Request.empty.run operations).aml).events.map Prod.fst →
          Template.isRaw (Request.empty.run operations).substitution.style
            content = false) →
      ((Request.empty.run operations).normalize locale none).2.text =
          .ok output →
      (Markup.read .unlimited output).ending = .ok place →
      ((Request.empty.run operations).normalize locale
          none).1.substitution.itemCount =
        Document.outerItemsAll
          (Document.treesOf
            ((Markup.read .unlimited output).events.map Prod.fst)) := by
  intro counted
  have standard :
      (Markup.read .standard "<Item/>").events.map Prod.fst =
        [.start "Item" [] true] := by
    decide +kernel
  have escaped (content : String)
      (member :
        .text content ∈
          (Markup.read .standard "<Item/>").events.map Prod.fst) :
      Template.isRaw .named content = false := by
    rw [standard] at member
    simp at member
  have readable :
      (Markup.read .unlimited "<Item/>").ending.toOption =
        some ⟨7, 1, 8⟩ := by
    decide +kernel
  have one :
      Document.outerItemsAll
          (Document.treesOf
            ((Markup.read .unlimited "<Item/>").events.map Prod.fst)) = 1 := by
    decide +kernel
  have none :=
    counted [.setAml "<Item/>"] Substitution.inJune "<Item/>" _
      (by decide +kernel) escaped (by rfl) (eq_ok_of_toOption readable)
  rw [one] at none
  revert none
  decide +kernel

end AmlExchange.Request
