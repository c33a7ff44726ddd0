import AmlExchange.Fault
import AmlExchange.Text.Blank
import AmlExchange.Text.Case

/-!
# Actions of the server

The actions that a request can ask for by name.
-/

namespace AmlExchange

/-- What a server is asked to do. -/
inductive Action where
  | applyAml
  | applyItem
  | applyMethod
  | applySql
  | applyUpdate
  | cacheDiag
  | clearCache
  | generateNewGuid
  | generateNewGuidEx
  | getAssignedTasks
  | getIdentityList
  | getItem
  | getNextSequence
  | getUsersList
  | logMessage
  | logXml
  | purgeItem
  | validateUser
deriving DecidableEq, Repr

namespace Action

/-- All actions, in alphabetical order. -/
def all : List Action :=
  [applyAml, applyItem, applyMethod, applySql, applyUpdate, cacheDiag,
    clearCache, generateNewGuid, generateNewGuidEx, getAssignedTasks,
    getIdentityList, getItem, getNextSequence, getUsersList, logMessage,
    logXml, purgeItem, validateUser]

/-- The name of an action. -/
def name : Action → String
  | applyAml => "ApplyAML"
  | applyItem => "ApplyItem"
  | applyMethod => "ApplyMethod"
  | applySql => "ApplySQL"
  | applyUpdate => "ApplyUpdate"
  | cacheDiag => "CacheDiag"
  | clearCache => "ClearCache"
  | generateNewGuid => "GenerateNewGUID"
  | generateNewGuidEx => "GenerateNewGUIDEx"
  | getAssignedTasks => "GetAssignedTasks"
  | getIdentityList => "GetIdentityList"
  | getItem => "GetItem"
  | getNextSequence => "GetNextSequence"
  | getUsersList => "GetUsersList"
  | logMessage => "LogMessage"
  | logXml => "LogXml"
  | purgeItem => "PurgeItem"
  | validateUser => "ValidateUser"

/-- The action with a name, blanks at the ends and letter case put aside. -/
def read (text : String) : Except Fault Action :=
  let wanted := Text.trim text.toList
  match all.find? fun action =>
      Text.sameIgnoringCase action.name.toList wanted with
  | some action => .ok action
  | none =>
      .error (.refused ("unknown action " ++ String.ofList wanted))

end Action

end AmlExchange
