/-
Documents: a tree with the comments and the tokens of its source, loaded from one JSON text. The comments and tokens are
lists on the top-level object, and are looked at after the whole tree was loaded, the comments first.
-/
import Arbor.Comment.Basic
import Arbor.Json.Parse
import Arbor.Token.Basic
import Arbor.Tree.Load

namespace Arbor

open Json (Value member?)

/-- a tree with the comments and tokens of its source -/
structure Document where
  tree : Tree
  comments : List Comment
  tokens : List Token
  deriving DecidableEq, Repr, Inhabited

/-- the two lists that accompany a tree -/
inductive ListName where
  | comments
  | tokens
  deriving DecidableEq, Repr

/-- what is wrong with an item of a list, or with the list itself -/
inductive ItemProblem where
  /-- the list is no array -/
  | notAnArray
  /-- the item is no object -/
  | notAnObject
  /-- the item has no `type` string -/
  | missingType
  /-- the item has a `type` that no comment or token has -/
  | unknownType
  /-- the item has no usable range -/
  | missingSpan
  deriving DecidableEq, Repr

/-- why a JSON text is no document -/
inductive LoadError where
  /-- the text cannot be read -/
  | unreadable (failure : Json.Failure)
  /-- the value is no tree -/
  | tree (e : TreeError)
  /-- an item of a list cannot be used -/
  | item (list : ListName) (index : Nat) (problem : ItemProblem)
  deriving DecidableEq, Repr

/-- what an item of the list is called -/
def ListName.item : ListName → String
  | .comments => "comment"
  | .tokens => "token"

/-- the report for a problem with an item -/
def ItemProblem.message (list : ListName) : ItemProblem → String
  | .notAnArray => s!"`{list.item}s` is not an array"
  | .notAnObject => "not an object"
  | .missingType => "missing `type`"
  | .unknownType => s!"unknown {list.item} type"
  | .missingSpan => "missing `start`/`end` or `range`"

/-- the report for a load error -/
def LoadError.message : LoadError → String
  | .unreadable failure => s!"tree JSON parse error: {failure.message}"
  | .tree e => e.message
  | .item list index problem => s!"invalid {list.item} at index {index}: {problem.message list}"

namespace Load

/-- the kind, range and text of an item; `ofTag?` knows the kinds of the list -/
def item {κ : Type} (ofTag? : String → Option κ) (v : Value) : Except ItemProblem (κ × Span × String) :=
  match v with
  | .object members =>
    match kindOf? members with
    | none => .error .missingType
    | some tag =>
      match ofTag? tag with
      | none => .error .unknownType
      | some kind =>
        match spanOf? members with
        | none => .error .missingSpan
        | some span => .ok (kind, span, ((member? members "value").bind Value.asString?).getD "")
  | _ => .error .notAnObject

/-- load the values from place `i` on, or say which is the first that cannot be used -/
def each {α : Type} (load : Value → Except ItemProblem α) (i : Nat) : List Value → Except (Nat × ItemProblem) (List α)
  | [] => .ok []
  | v :: rest =>
    match load v with
    | .error p => .error (i, p)
    | .ok a =>
      match each load (i + 1) rest with
      | .error e => .error e
      | .ok all => .ok (a :: all)

/-- load a list that may be missing -/
def listOf {α : Type} (list : ListName) (load : Value → Except ItemProblem α) : Option Value → Except LoadError (List α)
  | none => .ok []
  | some (.array values) =>
    match each load 0 values with
    | .error (i, p) => .error (.item list i p)
    | .ok all => .ok all
  | some _ => .error (.item list 0 .notAnArray)

/-- a comment of the comment list -/
def comment (v : Value) : Except ItemProblem Comment :=
  (item CommentKind.ofTag? v).map fun (kind, span, text) => ⟨kind, span, text⟩

/-- a token of the token list -/
def token (v : Value) : Except ItemProblem Token :=
  (item TokenKind.ofTag? v).map fun (kind, span, value) => ⟨kind, span, value⟩

end Load

/-- the tree of a JSON text; comments and tokens are not looked at -/
def Tree.parse (schema : Schema) (text : String) : Except LoadError Tree :=
  match Json.parse text with
  | .error e => .error (.unreadable e)
  | .ok v =>
    match Tree.ofValue schema v with
    | .error e => .error (.tree e)
    | .ok t => .ok t

/-- the document of a JSON value -/
def Document.ofValue (schema : Schema) (v : Value) : Except LoadError Document :=
  match Tree.ofValue schema v with
  | .error e => .error (.tree e)
  | .ok tree =>
    let members := v.asObject?.getD []
    match Load.listOf .comments Load.comment (member? members "comments") with
    | .error e => .error e
    | .ok comments =>
      match Load.listOf .tokens Load.token (member? members "tokens") with
      | .error e => .error e
      | .ok tokens => .ok ⟨tree, comments, tokens⟩

/-- the document of a JSON text -/
def Document.parse (schema : Schema) (text : String) : Except LoadError Document :=
  match Json.parse text with
  | .error e => .error (.unreadable e)
  | .ok v => Document.ofValue schema v

end Arbor
