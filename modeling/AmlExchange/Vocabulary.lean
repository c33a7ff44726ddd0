/-!
# Names with a meaning

The attributes and the properties that every type of item shares.
-/

namespace AmlExchange

namespace AttributeName

def action : String := "action"
def condition : String := "condition"
def id : String := "id"
def idlist : String := "idlist"
def isNull : String := "is_null"
def keyedName : String := "keyed_name"
def neutralValue : String := "neutral_value"
def origDateRange : String := "origDateRange"
def select : String := "select"
def type : String := "type"
def whereClause : String := "where"
def xmlLang : String := "xml:lang"

/-- All attribute names, in alphabetical order. -/
def all : List String :=
  [action, condition, id, idlist, isNull, keyedName, neutralValue,
    origDateRange, select, type, whereClause, xmlLang]

end AttributeName

namespace PropertyName

def configId : String := "config_id"
def createdById : String := "created_by_id"
def createdOn : String := "created_on"
def generation : String := "generation"
def id : String := "id"
def isCurrent : String := "is_current"
def isReleased : String := "is_released"
def keyedName : String := "keyed_name"
def majorRev : String := "major_rev"
def modifiedOn : String := "modified_on"
def newVersion : String := "new_version"
def notLockable : String := "not_lockable"
def state : String := "state"

/-- All property names, in alphabetical order. -/
def all : List String :=
  [configId, createdById, createdOn, generation, id, isCurrent, isReleased,
    keyedName, majorRev, modifiedOn, newVersion, notLockable, state]

end PropertyName

end AmlExchange
