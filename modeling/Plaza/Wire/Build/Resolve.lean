import Mathlib.Algebra.BigOperators.Group.Finset.Basic
import Mathlib.Data.Finmap
import Mathlib.Data.Finset.Sort
import Mathlib.Data.List.Basic
import Mathlib.Data.String.Basic
import Plaza.Lib.Execution
import Plaza.Wire.Build.Hash

-- What the build script reads of a Rust source.
namespace Plaza.Build

inductive Attribute
  | doc (text : String)
  | derive (paths : List String)
  | serde (tokens : String)
  | other
  deriving DecidableEq, Repr

-- A type. Of a path only the last segment counts, with the types among its arguments.
inductive SynType
  | path (segment : String) (args : List SynType)
  | tuple (elems : List SynType)
  | array (elem : SynType)
  | slice (elem : SynType)
  | paren (elem : SynType)
  | group (elem : SynType)
  | reference (elem : SynType)
  | traitObject
  | implTrait
  | macroCall
  | bareFn
  | other
  deriving Repr

-- The fields of a tuple have no names.
structure Field where
  attrs : List Attribute
  ident : Option String
  ty    : SynType
  deriving Repr

-- The fields of a struct or a variant.
inductive Fields
  | named (fields : List Field)
  | unnamed (fields : List Field)
  | unit
  deriving Repr

def Fields.toList : Fields → List Field
  | named fields | unnamed fields => fields
  | unit                          => []

structure Variant where
  attrs  : List Attribute
  ident  : String
  fields : Fields
  deriving Repr

-- What all definitions have: `text` is the definition's own source.
structure Head where
  attrs      : List Attribute
  ident      : String
  typeParams : List String
  text       : List Char
  deriving Repr

inductive Item
  | struct (head : Head) (fields : Fields)
  | enum (head : Head) (variants : List Variant)
  | alias (head : Head) (ty : SynType)
  | mod (content : Option (List Item))
  | union (head : Head)
  | other
  deriving Repr

-- The doc tag that marks an op enum as a wire root.
def rootTag : String := "plaza-wire: root"

def offWireTag : String := "plaza-wire: off-wire"

-- Names whose serde form is stable without their definition being scanned.
def stdLeaves : List String :=
  ["bool", "char", "f32", "f64", "i8", "i16", "i32", "i64", "i128", "isize", "u8", "u16", "u32", "u64", "u128",
   "usize", "str", "String", "Option", "Vec", "Box", "Arc", "Rc", "Cow", "HashMap", "BTreeMap", "HashSet", "BTreeSet",
   "VecDeque", "PhantomData", "Duration", "Uuid"]

-- Plaza vocabulary covered by a version of its own.
def vocabLeaves : List String :=
  ["Agent", "SequencedClientInput", "AuthoritativeStateUpdate", "TimestampedClientAction", "RemoteEntitySnapshot",
   "PhaseChangedNoticePayload", "RequestPhaseTransitionPayload", "CountdownTickNoticePayload",
   "EndTurnRequestPayload", "TurnChangedNoticePayload", "RoundStartedNoticePayload", "RoundEndedNoticePayload"]

def math : List String := ["Vec2", "Vec3", "Quat"]

def appCommon : List String :=
  ["ActivityStatusPayload", "CreateObjectPayload", "CursorPositionPayload", "DeleteObjectPayload",
   "DeleteObjectPropertyPayload", "InsertListItemPayload", "LockAcquiredNoticePayload", "LockDeniedNoticePayload",
   "LockReleasedNoticePayload", "MoveListItemPayload", "PresenceChangedNoticePayload", "ReleaseLockPayload",
   "RemoveListItemPayload", "RequestLockPayload", "SelectionPayload", "SetObjectPropertyPayload",
   "UpdateListItemPayload", "UpdatePresencePayload"]

-- The call that covers a plaza type which lives in core.
def bundleHint (name : String) : Option String :=
  if name ∈ math then some ".vocab(plaza_wire::build::vocab::MATH)"
  else if name ∈ appCommon then some ".vocab(plaza_wire::build::vocab::APP_COMMON)"
  else none

structure Definition where
  hashText      : List Char
  refs          : List String
  opaques       : List String
  rootTagged    : Bool
  offWireTagged : Bool
  serdeDerived  : Bool
  file          : String
  item          : Item

abbrev Index := Finmap fun _ : String => Definition

def quoteType : SynType → String
  | .traitObject => "a trait object"
  | .implTrait   => "an impl-trait type"
  | .macroCall   => "a macro-generated type"
  | .bareFn      => "a function pointer"
  | _            => "an unsupported type form"

mutual

-- The names which a type refers to, and the forms in it that have no wire shape.
def collectType (exclude : List String) : SynType → List String × List String
  | .path name args =>
    let (refs, opaques) := collectTypes exclude args
    (if name ∈ exclude then refs else name :: refs, opaques)
  | .tuple elems    => collectTypes exclude elems
  | .array elem     => collectType exclude elem
  | .slice elem     => collectType exclude elem
  | .paren elem     => collectType exclude elem
  | .group elem     => collectType exclude elem
  | .reference elem => collectType exclude elem
  | .traitObject    => ([], [quoteType .traitObject])
  | .implTrait      => ([], [quoteType .implTrait])
  | .macroCall      => ([], [quoteType .macroCall])
  | .bareFn         => ([], [quoteType .bareFn])
  | .other          => ([], [quoteType .other])

def collectTypes (exclude : List String) : List SynType → List String × List String
  | []          => ([], [])
  | ty :: types =>
    let (refs, opaques)   := collectType exclude ty
    let (refs', opaques') := collectTypes exclude types
    (refs ++ refs', opaques ++ opaques')

end

-- A definition's own text under the same normalisation as a file's. An alias is no type definition there.
def hashText (isAlias : Bool) (text : List Char) : List Char :=
  if isAlias then
    (lines text).foldl (fun out line => pushNormalised out (trim (uncommented line))) []
  else
    typeDefinitions text

def docContains (attrs : List Attribute) (tag : String) : Bool :=
  attrs.any fun
    | .doc text => trim text.toList = tag.toList
    | _         => false

def derivesSerde (attrs : List Attribute) : Bool :=
  attrs.any fun
    | .derive paths => paths.any fun p => p = "Serialize" || p = "Deserialize"
    | _             => false

-- Two definitions of one name are refused.
inductive Failure
  | duplicate (name previous file : String)
  | rootsNotFound (missing : List String)
  | noRoots
  | unresolved (reports : List String)
  deriving DecidableEq, Repr

-- The message with which the build fails.
def Failure.text : Failure → String
  | duplicate name previous file =>
    s!"plaza-wire: two definitions of `{name}` ({previous} and {file}). The resolver indexes by bare name, so wire " ++
      "types need unique names; rename one, or use Wire::ops with unambiguous roots and keep the duplicate off the wire"
  | rootsNotFound missing =>
    s!"plaza-wire: named roots not found in the scanned directories: [" ++
      ", ".intercalate (missing.map String.quote) ++ "]"
  | noRoots =>
    s!"plaza-wire: no roots found. Tag each op enum with a doc line reading `/// {rootTag}`, or name them with " ++
      "Wire::ops(&[..])"
  | unresolved reports =>
    "plaza-wire: the wire does not resolve:\n  - " ++ "\n  - ".intercalate reports

def insert (index : Index) (head : Head) (item : Item) (isAlias : Bool) (types : List SynType) (file : String) :
    Except Failure Index :=
  let (refs, opaques) := collectTypes head.typeParams types
  match index.lookup head.ident with
  | some previous => .error <| .duplicate head.ident previous.file file
  | none          => .ok <| index.insert head.ident {
      hashText      := hashText isAlias head.text
      refs          := refs
      opaques       := opaques
      rootTagged    := docContains head.attrs rootTag
      offWireTagged := docContains head.attrs offWireTag
      serdeDerived  := derivesSerde head.attrs
      file          := file
      item          := item
    }

mutual

def indexItem (file : String) (index : Index) : Item → Except Failure Index
  | .struct head fields => insert index head (.struct head fields) false (fields.toList.map Field.ty) file
  | .enum head variants =>
    insert index head (.enum head variants) false
      (variants.flatMap fun v => v.fields.toList.map Field.ty) file
  | .alias head ty      => insert index head (.alias head ty) true [ty] file
  | .mod (some items)   => indexItems file index items
  | .mod none           => .ok index
  | .union _            => .ok index
  | .other              => .ok index

def indexItems (file : String) (index : Index) : List Item → Except Failure Index
  | []            => .ok index
  | item :: items => do
    let index ← indexItem file index item
    indexItems file index items

end

-- Names are sorted by an order which is total.
instance nameTrans : IsTrans String (· ≤ ·) :=
  ⟨fun _ _ _ => le_trans⟩

instance nameAntisymm : @Std.Antisymm String (· ≤ ·) :=
  ⟨fun _ _ => le_antisymm⟩

instance nameTotal : @Std.Total String (· ≤ ·) :=
  ⟨le_total⟩

-- The source files of the scanned directories in order, and the sources of the bundles, by name or label.
structure Wire where
  roots  : Option (List String)
  files  : List (String × List Item)
  vocab  : List (String × List Item)
  leaves : List String

namespace Wire

def scan (w : Wire) : Except Failure Index :=
  w.files.foldlM (fun index file => indexItems file.fst index file.snd) ∅

-- The scan with the bundles, which its own definitions shadow.
def index (w : Wire) : Except Failure Index := do
  let scanned ← w.scan
  w.vocab.foldlM (fun index bundle => do
    let bundle ← indexItems bundle.fst ∅ bundle.snd
    return index ∪ bundle) scanned

def findRoots (w : Wire) (index : Index) : Except Failure (List String) :=
  match w.roots with
  | some named =>
    let missing := named.filter (· ∉ index)
    if missing ≠ [] then .error <| .rootsNotFound missing else .ok named
  | none =>
    let tagged := (index.keys.sort (· ≤ ·)).filter fun name => (index.lookup name).any Definition.rootTagged
    if tagged = [] then .error .noRoots else .ok tagged

-- What the walk has to say about a definition: its errors, and the warnings it prints.
inductive Report
  | shapeless (name file what : String)
  | uncovered (reference name hint : String)
  | unresolved (reference name file : String)
  deriving DecidableEq, Repr

namespace Report

-- The text of an error. A warning stops nothing.
def error? : Report → Option String
  | shapeless name file what => some s!"`{name}` ({file}) contains {what}, which has no defined wire shape"
  | uncovered ..             => none
  | unresolved reference name file =>
    some <| s!"cannot resolve `{reference}`, referenced from `{name}` ({file}). Define it in a scanned directory, " ++
      s!"add .also_scan(dir), or acknowledge it with .leaf(\"{reference}\") if its wire shape is pinned elsewhere"

end Report

-- The queue is popped at its back, which the list has in front.
structure Walk where
  queue    : List String
  included : Finset String
  reports  : List Report

def Walk.start (roots : List String) : Walk where
  queue    := roots.reverse
  included := ∅
  reports  := []

def follow (w : Wire) (index : Index) (name : String) (d : Definition) (s : Walk) (reference : String) : Walk :=
  if reference ∈ stdLeaves || reference ∈ w.leaves then s
  else if reference ∈ vocabLeaves then s
  else if reference ∈ index then { s with queue := reference :: s.queue }
  else match bundleHint reference with
    | some hint => { s with reports := s.reports ++ [.uncovered reference name hint] }
    | none      => { s with reports := s.reports ++ [.unresolved reference name d.file] }

def loop (w : Wire) (index : Index) : Loop Walk where
  body s :=
    match s.queue with
    | []            => none
    | name :: queue =>
      match index.lookup name with
      | none   => some { s with queue }
      | some d =>
        if name ∈ s.included then
          some { s with queue }
        else
          some <| d.refs.foldl (w.follow index name d) {
            queue
            included := Insert.insert name s.included
            reports  := s.reports ++ d.opaques.map (.shapeless name d.file)
          }

-- As many rounds as there are roots and references.
def resolve (w : Wire) (index : Index) (roots : List String) : Walk :=
  let rounds := roots.length + ∑ name ∈ index.keys, ((index.lookup name).elim 0 (·.refs.length))
  (w.loop index).run rounds (.start roots)

def toBeBytes (n : UInt32) : List UInt8 :=
  [(n >>> 24).toUInt8, (n >>> 16).toUInt8, (n >>> 8).toUInt8, n.toUInt8]

-- The hash of the definitions of these names, in the order of the names.
def hash (index : Index) (included : Finset String) (vocabVersion : UInt32) : UInt32 :=
  let hash := (included.sort (· ≤ ·)).foldl (fun hash name =>
    let hash := fnv1a (utf8 name.toList) hash
    fnv1a (utf8 <| stripTrailingCommas <| (index.lookup name).elim [] Definition.hashText) hash) basis
  max 1 <| fnv1a (toBeBytes vocabVersion) hash

-- The derived version. The number of plaza's own vocabulary is baked into the crate.
def version (w : Wire) (vocabVersion : UInt32) : Except Failure UInt32 := do
  let index ← w.index
  let roots ← w.findRoots index
  let s := w.resolve index roots
  let errors := s.reports.filterMap Report.error?
  if errors ≠ [] then .error <| .unresolved errors else return hash index s.included vocabVersion

end Wire
end Plaza.Build
