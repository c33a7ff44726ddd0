/-!
# Namespaces

The three namespaces that AML elements may belong to, with the names that are
bound to them.
-/

namespace AmlExchange

/-- A namespace of AML. -/
inductive Space where
  | envelope
  | fault
  /-- Values in another language than that of the locale. -/
  | foreign
deriving DecidableEq, Repr

namespace Space

/-- The name that stands for a namespace in the names of elements. -/
def name : Space → String
  | envelope => "SOAP-ENV"
  | fault => "af"
  | foreign => "i18n"

/-- What identifies a namespace. -/
def uri : Space → String
  | envelope => "http://schemas.xmlsoap.org/soap/envelope/"
  | fault => "http://www.aras.com/InnovatorFault"
  | foreign => "http://www.aras.com/I18N"

/-- The attribute that binds the name of a namespace. -/
def binding (space : Space) : String :=
  "xmlns:" ++ space.name

/-- An element name within a namespace. -/
def qualify (space : Space) (name : String) : String :=
  space.name ++ ":" ++ name

end Space

end AmlExchange
