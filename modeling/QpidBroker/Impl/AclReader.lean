import QpidBroker.Impl.AclData
import Mathlib.Data.Char
import Mathlib.Data.List.Lex
import Mathlib.Data.List.Sort

/-!
# The reader of the access control file

`acl/AclReader.h`, `acl/AclReader.cpp` and the names of `broker/AclModule.h`: an ACL file
line by line, and the decision data made of its rules.

* A `std::set` of names is its list in order, of which `begin()` is the head.
* The result is `none` where the code has no defined behaviour: when it takes the first
  name of an empty set, or the group of a continuation line that follows no group.
* Left out: the file's opening, and `validate`, which accepts every rule.
-/

namespace QB.Impl.Acl

/-- `ACL_KEYWORD_ALL`. -/
def keywordAll : Text := "all".toList

def getObjectType (str : Text) : Option ObjectType :=
  [("queue", ObjectType.queue), ("exchange", .exchange), ("broker", .broker), ("link", .link),
    ("method", .method)].findSome? fun e => if str = e.1.toList then some e.2 else none

def getAction (str : Text) : Option Action :=
  [("consume", Action.consume), ("publish", .publish), ("create", .create), ("access", .access),
    ("bind", .bind), ("unbind", .unbind), ("delete", .delete), ("purge", .purge),
    ("update", .update)].findSome? fun e => if str = e.1.toList then some e.2 else none

def getAclResult (str : Text) : Option AclResult :=
  [("allow", AclResult.allow), ("allow-log", .allowlog), ("deny", .deny),
    ("deny-log", .denylog)].findSome? fun e => if str = e.1.toList then some e.2 else none

def getSpecProperty (str : Text) : Option SpecProperty :=
  [("name", SpecProperty.name), ("durable", .durable), ("owner", .owner), ("routingkey", .routingkey),
    ("autodelete", .autodelete), ("exclusive", .exclusive), ("type", .type), ("alternate", .alternate),
    ("queuename", .queuename), ("schemapackage", .schemapackage), ("schemaclass", .schemaclass),
    ("policytype", .policytype), ("paging", .paging),
    ("queuemaxsizelowerlimit", .lowerLimit .maxqueuesize),
    ("queuemaxsizeupperlimit", .upperLimit .maxqueuesize),
    ("queuemaxcountlowerlimit", .lowerLimit .maxqueuecount),
    ("queuemaxcountupperlimit", .upperLimit .maxqueuecount),
    ("filemaxsizelowerlimit", .lowerLimit .maxfilesize),
    ("filemaxsizeupperlimit", .upperLimit .maxfilesize),
    ("filemaxcountlowerlimit", .lowerLimit .maxfilecount),
    ("filemaxcountupperlimit", .upperLimit .maxfilecount),
    ("pageslowerlimit", .lowerLimit .maxpages),
    ("pagesupperlimit", .upperLimit .maxpages),
    ("pagefactorlowerlimit", .lowerLimit .maxpagefactor),
    ("pagefactorupperlimit", .upperLimit .maxpagefactor),
    -- allow old names in ACL file as aliases for the new ones
    ("maxqueuesize", .upperLimit .maxqueuesize),
    ("maxqueuecount", .upperLimit .maxqueuecount)].findSome? fun e =>
      if str = e.1.toList then some e.2 else none

abbrev NameSet := List Text

def NameSet.insert (name : Text) (names : NameSet) : NameSet :=
  if names.contains name then names else names.orderedInsert (· ≤ ·) name

abbrev GroupMap := List (Text × NameSet)

inductive ObjectStatus where
  | none | value | all
deriving DecidableEq

structure AclRule where
  res : AclResult
  names : NameSet
  actionAll : Bool
  action : Action
  objStatus : ObjectStatus := .none
  object : ObjectType := .queue
  props : SpecPropertyMap := .empty

namespace AclRule

def processName (name : Text) (groups : GroupMap) : NameSet :=
  if name = keywordAll then [wildcard] else (groups.lookup name).getD [name]

def addProperty (rule : AclRule) (p : SpecProperty) (v : Text) : AclRule :=
  { rule with props := rule.props.insert p v }

end AclRule

structure AclReader where
  fileName : Text
  lineNumber : Nat := 0
  contFlag : Bool := false
  groupName : Text := []
  names : NameSet := [wildcard]
  groups : GroupMap := []
  rules : List AclRule := []
  errorStream : Text := []
  connQuotaRulesExist : Bool := false
  connQuota : List (Text × Nat) := []
  queueQuotaRulesExist : Bool := false
  queueQuota : List (Text × Nat) := []

namespace AclReader

/-- A message on the error stream, behind `ACL_FORMAT_ERR_LOG_PREFIX`. -/
def formatErr (r : AclReader) (msg : Text) : AclReader :=
  { r with errorStream := r.errorStream ++ "ACL format error: ".toList ++ r.fileName ++ ":".toList ++
      (toString r.lineNumber).toList ++ ": ".toList ++ msg }

/-- `formatErr` of a message that begins with the line. -/
def lineErr (r : AclReader) (msg : Text) : AclReader :=
  r.formatErr ("Line : ".toList ++ (toString r.lineNumber).toList ++ ", ".toList ++ msg)

def quoted (t : Text) : Text := "\"".toList ++ t ++ "\"".toList

/-! ## Groups -/

def isValidGroupName (name : Text) : Bool := name.all fun ch => ch.isAlphanum || ch = '-' || ch = '_'

def isValidUserName (r : AclReader) (name : Text) : AclReader × Bool :=
  if !name.contains '@' || (name.dropWhile (· ≠ '@')).length = 1 then
    (r.lineErr ("Username '".toList ++ name ++ "' must contain a realm".toList), false)
  else if name.all fun ch => ch.isAlphanum || ch = '-' || ch = '_' || ch = '@' || ch = '.' || ch = '/' then
    (r, true)
  else (r.lineErr ("Username ".toList ++ quoted name ++ " contains illegal characters.".toList), false)

def addName (r : AclReader) (name : Text) : AclReader := { r with names := NameSet.insert name r.names }

/-- A group's set of names is changed. -/
def setGroup (r : AclReader) (group : Text) (f : NameSet → NameSet) : AclReader :=
  { r with groups := r.groups.map fun e => if e.1 = group then (e.1, f e.2) else e }

/-- `addName(name, groupNameSet)`. -/
def addGroupName (r : AclReader) (name group : Text) : AclReader :=
  match r.groups.lookup name with
  -- a previously defined group: add all the names in that group to this group
  | some names => r.setGroup group fun s => names.foldl (fun s n => NameSet.insert n s) s
  -- not a known group name
  | none => (r.setGroup group (NameSet.insert name)).addName name

/-- `addGroup(newGroupName)`: whether it was added. -/
def addGroup (r : AclReader) (newGroupName : Text) : AclReader × Bool :=
  if (r.groups.lookup newGroupName).isSome then
    (r.lineErr ("Duplicate group name ".toList ++ quoted newGroupName ++ ".".toList), false)
  else ({ r with groups := (newGroupName, []) :: r.groups, groupName := newGroupName }, true)

/-- The loops of `processGroupLine`: the tokens are added to the group, if it is there. -/
def addTokens (group : Text) : AclReader → List Text → Option (AclReader × Bool)
  | r, [] => some (r, true)
  | r, tok :: toks =>
    if isValidGroupName tok then
      -- a recursive sub-group is ignored
      if tok = r.groupName then addTokens group r toks
      else if (r.groups.lookup tok).isNone then
        some (r.lineErr ("Sub-group ".toList ++ quoted tok ++ " not defined yet.".toList), false)
      else if (r.groups.lookup group).isNone then none
      else addTokens group (r.addGroupName tok group) toks
    else
      match r.isValidUserName tok with
      | (r, false) => some (r, false)
      | (r, true) =>
        if (r.groups.lookup group).isNone then none
        else addTokens group (r.addGroupName tok group) toks

def processGroupLine (r : AclReader) (toks : List Text) (cont : Bool) : Option (AclReader × Bool) :=
  if r.contFlag then addTokens r.groupName r toks
  else if toks.length < (if cont then 2 else 3) then
    some (r.lineErr "Insufficient tokens for group definition.".toList, false)
  else
    let name := toks.getD 1 []
    if !isValidGroupName name then
      some (r.lineErr ("Group name ".toList ++ quoted name ++ " contains illegal characters.".toList), false)
    else match r.addGroup name with
      | (r, false) => some (r, false)
      | (r, true) => addTokens name r (toks.drop 2)

/-! ## Rules -/

def splitNameValuePair (nvpString : Text) : Text × Text :=
  match nvpString.dropWhile (· ≠ '=') with
  | [] => (nvpString, [])
  | [_] => (nvpString, [])
  | _ :: value => (nvpString.takeWhile (· ≠ '='), value)

/-- The loop of `processAclLine` over the properties: the rule, or what is wrong. -/
def processProperties : AclRule → List Text → Except Text AclRule
  | rule, [] => .ok rule
  | rule, tok :: toks =>
    let propNvp := splitNameValuePair tok
    if propNvp.2.isEmpty then
      .error ("Badly formed property name-value pair ".toList ++ quoted propNvp.1 ++ ". (Must be name=value)".toList)
    else match getSpecProperty propNvp.1 with
      | none => .error ("Unknown property ".toList ++ quoted propNvp.1 ++ ".".toList)
      | some prop => processProperties (rule.addProperty prop propNvp.2) toks

/-- The object and the properties of a rule, if any. -/
def processObject (rule : AclRule) : List Text → Except Text AclRule
  | [] => .ok rule
  | obj :: toks =>
    if obj = keywordAll then processProperties { rule with objStatus := .all } toks
    else match getObjectType obj with
      | none => .error ("Unknown object ".toList ++ quoted obj ++ ".".toList)
      | some o => processProperties { rule with objStatus := .value, object := o } toks

/-- The rule of an acl line, or what is wrong with it. -/
def aclRule (groups : GroupMap) : List Text → Except Text AclRule
  | _ :: permission :: user :: act :: toks =>
    match getAclResult permission with
    | none => .error ("Unknown ACL permission ".toList ++ quoted permission ++ ".".toList)
    | some res =>
      if act = keywordAll then
        if user = keywordAll && !toks.isEmpty then .error "Tokens found after action \"all\".".toList
        else processObject ⟨res, AclRule.processName user groups, true, .consume, .none, .queue, .empty⟩ toks
      else match getAction act with
        | none => .error ("Unknown action ".toList ++ quoted act ++ ".".toList)
        | some action =>
          processObject ⟨res, AclRule.processName user groups, false, action, .none, .queue, .empty⟩ toks
  | _ => .error "Insufficient tokens for acl definition.".toList

def processAclLine (r : AclReader) (toks : List Text) : AclReader × Bool :=
  match aclRule r.groups toks with
  | .error msg => (r.lineErr msg, false)
  | .ok rule =>
    let user := toks.getD 2 []
    -- if the name is no group, add it as the name of an individual
    let r := if user ≠ keywordAll && (r.groups.lookup user).isNone then r.addName user else r
    ({ r with rules := r.rules ++ [rule] }, true)

/-! ## Quotas -/

/-- A setting of a `quotaRuleSet`. -/
def setQuota (settings : List (Text × Nat)) (user : Text) (n : Nat) : List (Text × Nat) :=
  (user, n) :: settings.filter (·.1 ≠ user)

/-- `processQuotaGroup(theGroup, theQuota, theRules)`; `fuel` bounds the depth of groups in groups. -/
def processQuotaGroup (groups : GroupMap) (theQuota : Nat) :
    Nat → Text → List (Text × Nat) → Option (List (Text × Nat))
  | 0, _, _ => none
  | fuel + 1, theGroup, theRules =>
    match groups.lookup theGroup with
    | none => none
    | some members => members.foldlM (fun rules member =>
        if (groups.lookup member).isNone then some (setQuota rules member theQuota)
        else processQuotaGroup groups theQuota fuel member rules) theRules

/-- The loop of `processQuotaLine` over the names; a group that does not expand ends it. -/
def applyQuota (groups : GroupMap) (n : Nat) : List Text → List (Text × Nat) → Except Text (List (Text × Nat))
  | [], rules => .ok rules
  | name :: toks, rules =>
    if (groups.lookup name).isNone then applyQuota groups n toks (setQuota rules name n)
    else match processQuotaGroup groups n (groups.length + 1) name rules with
      | none => .error ("Failed to expand group ".toList ++ quoted name ++ ".".toList)
      | some rules => applyQuota groups n toks rules

/-- `processQuotaLine(toks, theNoun, maxSpec, theRules)`. -/
def quotaRules [LexicalCast] (groups : GroupMap) (toks : List Text) (theNoun : Text) (maxSpec : Nat)
    (theRules : List (Text × Nat)) : Except Text (List (Text × Nat)) :=
  let value := toks.getD 2 []
  match lexicalCast 16 value with
  | none => .error (theNoun ++ " quota value ".toList ++ quoted value ++
      " cannot be converted to a 16-bit unsigned integer.".toList)
  | some nEntities =>
    if nEntities > maxSpec then
      .error (theNoun ++ " quota value ".toList ++ quoted value ++
        " exceeds maximum configuration setting of ".toList ++ (toString maxSpec).toList)
    else applyQuota groups nEntities (toks.drop 3) theRules

/-- `getConnectMaxSpec()`. -/
def connectMaxSpec : Nat := 65530

def processQuotaLine [LexicalCast] (r : AclReader) (toks : List Text) : AclReader × Bool :=
  if toks.length < 3 then (r.lineErr "Insufficient tokens for quota definition.".toList, false)
  else if toks.getD 1 [] = "connections".toList then
    match quotaRules r.groups toks "connections".toList connectMaxSpec r.connQuota with
    | .error msg => (r.lineErr msg, false)
    | .ok rules => ({ r with connQuota := rules, connQuotaRulesExist := true }, true)
  else if toks.getD 1 [] = "queues".toList then
    match quotaRules r.groups toks "queues".toList connectMaxSpec r.queueQuota with
    | .error msg => (r.lineErr msg, false)
    | .ok rules => ({ r with queueQuota := rules, queueQuotaRulesExist := true }, true)
  else (r.lineErr ("Quota type ".toList ++ quoted (toks.getD 1 []) ++ " unrecognized.".toList), false)

/-! ## Lines -/

/-- The characters that `strtok` separates tokens by. -/
def isTokChar (c : Char) : Bool := [' ', '\t', '\n', '\x0c', '\x0b', '\r'].contains c

def tokenize (line : Text) : List Text := (line.splitOnP isTokChar).filter (!·.isEmpty)

/-- The line without its last continuation character and what follows it, if there is one. -/
def continuation (line : Text) : Option Text :=
  if line.contains '\\' then some ((line.reverse.dropWhile (· ≠ '\\')).drop 1).reverse else none

def processLine [LexicalCast] (r : AclReader) (line : Text) : Option (AclReader × Bool) :=
  let cont := (continuation line).isSome
  let toks := tokenize ((continuation line).getD line)
  if cont && toks.isEmpty then
    some (r.formatErr ("Line \"".toList ++ (toString r.lineNumber).toList ++
      "\" contains an illegal extension.".toList), false)
  else
    let done := fun p : AclReader × Bool => ({ p.1 with contFlag := cont }, p.2)
    -- a line of white space only is ignored
    if toks.isEmpty then some (done (r, true))
    else if toks.head? = some "group".toList || r.contFlag then
      (r.processGroupLine toks cont).map done
    else if toks.head? = some "acl".toList then some (done (r.processAclLine toks))
    else if toks.head? = some "quota".toList then some (done (r.processQuotaLine toks))
    else some (done (r.lineErr
      "Non-continuation line must start with \"group\", \"acl\". or \"quota\".".toList, false))

/-- The loop of `read`: `getline` into a buffer of 1024 characters, which fails on a longer
line and ends the loop. The flags are whether the file was read to its end, and `err`. -/
def readLines [LexicalCast] : AclReader → Bool → List Text → Option (AclReader × Bool × Bool)
  | r, err, [] => some (r, true, err)
  | r, err, line :: lines =>
    let r := { r with lineNumber := r.lineNumber + 1 }
    let buff := (line.take 1023).takeWhile (· ≠ '\x00')
    let turn := if buff.isEmpty || buff.head? = some '#' then some (r, true) else r.processLine buff
    match turn with
    | none => none
    | some (r, ok) => if line.length > 1023 then some (r, false, err || !ok) else readLines r (err || !ok) lines

/-! ## Decision data -/

/-- The loaded rule of a rule of the file, before its actions are walked. -/
def loadRule (rule : AclRule) : Rule :=
  let loaded : Rule :=
    { ruleMode := rule.res
      props := rule.props
      -- which properties have the user substitution string
      ruleHasUserSub := (rule.props.entries.filter fun e => hasKeyword e.2).map (·.1) }
  match rule.props.find .routingkey with
  | none => loaded
  | some key => { loaded with pubRoutingKeyInRule := true, pubRoutingKey := key }.addTopicTest key

/-- The special places for the lookup of publish, filled when that action is met. -/
def loadPublish (rule : AclRule) (loaded : Rule) : Rule :=
  match rule.props.find .name with
  | none => loaded
  | some name => { loaded with pubExchNameInRule := true, pubExchName := name,
                               pubExchNameMatchesBlank := name = defaultExchange }

def pushBack (rule : Rule) (m : ActionObject) (user : Text) : ActionObject :=
  if (m.lookup user).isSome then m.map fun e => if e.1 = user then (e.1, e.2 ++ [rule]) else e
  else (user, [rule]) :: m

def objects (rule : AclRule) : List ObjectType :=
  if rule.objStatus = .value then [rule.object] else ObjectType.all

def actions (rule : AclRule) : List Action := if rule.actionAll then Action.all else [rule.action]

/-- The users a rule is loaded for. There is no defined first name of an empty set. -/
def users (names : NameSet) (rule : AclRule) : Option (List Text) :=
  rule.names.head?.map fun first => if first = wildcard then names else rule.names

def loadObjects (loaded : Rule) (users : List Text) (table : ObjectType → Option ActionObject)
    (os : List ObjectType) : ObjectType → Option ActionObject :=
  os.foldl (fun table o => Function.update table o (some (users.foldl (pushBack loaded) ((table o).getD [])))) table

/-- A turn of the loop over the actions: the rule loaded so far, and the data. -/
def loadAction (rule : AclRule) (users : List Text) (s : Rule × AclData) (a : Action) : Rule × AclData :=
  let loaded := if a = .publish then loadPublish rule s.1 else s.1
  let d := if a = .publish then { s.2 with transferAcl := true } else s.2
  let table := (d.actionList a).getD fun _ => none
  (loaded, { d with
    actionList := Function.update d.actionList a (some (loadObjects loaded users table (objects rule))) })

/-- A turn of the loop over the rules: `foundmode`, and the data. -/
def loadTurn (names : NameSet) (s : Bool × AclData) (rule : AclRule) : Option (Bool × AclData) :=
  if !s.1 && rule.actionAll && rule.names.length = 1 && rule.names.head? = some wildcard then
    some (true, { s.2 with decisionMode := rule.res })
  else (users names rule).map fun us => (s.1, ((actions rule).foldl (loadAction rule us) (loadRule rule, s.2)).2)

/-- `loadDecisionData(d)`, for new data. -/
def loadDecisionData (r : AclReader) : Option AclData :=
  (r.rules.reverse.foldlM (loadTurn r.names) (false, {})).map fun s =>
    { s.2 with connQuotaRulesExist := r.connQuotaRulesExist, connQuotaRuleSettings := r.connQuota,
               queueQuotaRulesExist := r.queueQuotaRulesExist, queueQuotaRuleSettings := r.queueQuota }

/-- The reader as `read` starts it: settings of the command line apply to all. -/
def start (fileName : Text) (cliMaxConnPerUser cliMaxQueuesPerUser : Nat) : AclReader where
  fileName := fileName
  connQuotaRulesExist := 0 < cliMaxConnPerUser
  connQuota := if 0 < cliMaxConnPerUser then [(keywordAll, cliMaxConnPerUser)] else []
  queueQuotaRulesExist := 0 < cliMaxQueuesPerUser
  queueQuota := if 0 < cliMaxQueuesPerUser then [(keywordAll, cliMaxQueuesPerUser)] else []

/-- `read(fn, d)` of a file with this text: the reader, and the data or the code of the failure. -/
def read [LexicalCast] (r : AclReader) (text : Text) : Option (AclReader × Except Int AclData) :=
  match r.readLines false (text.splitOn '\n') with
  | none => none
  | some (r, eof, err) =>
    if !eof then
      some ({ r with errorStream := r.errorStream ++ "Unable to read ACL file ".toList ++ quoted r.fileName ++
        ": eof=F; fail=T; bad=F".toList }, .error (-2))
    else if err then some (r, .error (-3))
    else r.loadDecisionData.map fun d => (r, .ok d)

end AclReader

end QB.Impl.Acl
