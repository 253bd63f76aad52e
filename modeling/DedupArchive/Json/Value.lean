/-
  DedupArchive/Json/Value.lean
  ============================
  **The grammar of JSON values over tokens.**

  `isValue` decides whether a row of tokens is one value, nested to any depth: a
  pushdown automaton whose stack holds the open brackets.  `items?` takes the
  outermost pair of brackets off and splits what is between them at its own
  commas, so that a reader of a known shape looks at each item by itself.
-/
import DedupArchive.Json.Token

namespace DedupArchive.Json

inductive Bracket where
  | array
  | object
deriving DecidableEq, Repr

/-- What the grammar allows next; `nothing` when the value is complete. -/
inductive Expect where
  | value
  | valueOrEnd
  | key
  | keyOrEnd
  | colon
  | commaOrEnd
  | nothing
deriving DecidableEq, Repr

/-- What follows a complete value inside the given open brackets. -/
def afterValue : List Bracket → Expect
  | [] => .nothing
  | _ :: _ => .commaOrEnd

def beginValue? (stack : List Bracket) : Token → Option (List Bracket × Expect)
  | .null | .boolean _ | .number _ | .string _ => some (stack, afterValue stack)
  | .openArray => some (.array :: stack, .valueOrEnd)
  | .openObject => some (.object :: stack, .keyOrEnd)
  | _ => none

def advance? (stack : List Bracket) (expect : Expect) (token : Token) :
    Option (List Bracket × Expect) :=
  match expect, stack, token with
  | .value, _, _ => beginValue? stack token
  | .valueOrEnd, .array :: outer, .closeArray => some (outer, afterValue outer)
  | .valueOrEnd, _, _ => beginValue? stack token
  | .keyOrEnd, .object :: outer, .closeObject => some (outer, afterValue outer)
  | .keyOrEnd, _, .string _ => some (stack, .colon)
  | .key, _, .string _ => some (stack, .colon)
  | .colon, _, .colon => some (stack, .value)
  | .commaOrEnd, .array :: outer, .closeArray => some (outer, afterValue outer)
  | .commaOrEnd, .object :: outer, .closeObject => some (outer, afterValue outer)
  | .commaOrEnd, .array :: _, .comma => some (stack, .value)
  | .commaOrEnd, .object :: _, .comma => some (stack, .key)
  | _, _, _ => none

def isValue (tokens : List Token) : Bool :=
  let start : List Bracket × Expect := ([], .value)
  match tokens.foldlM (fun s token => advance? s.1 s.2 token) start with
  | some (_, .nothing) => true
  | _ => false

/-- Split the inside of a bracket at its own commas.  `depth` counts the
    brackets open inside, `item` is the item being read, last token first. -/
def splitItems? (depth : Nat) (item : List Token) (done : List (List Token)) :
    List Token → Option (List (List Token))
  | [] => none
  | token :: rest =>
    match token with
    | .closeObject | .closeArray =>
      match depth with
      | 0 => if rest.isEmpty then some (item.reverse :: done).reverse else none
      | depth + 1 => splitItems? depth (token :: item) done rest
    | .openObject | .openArray => splitItems? (depth + 1) (token :: item) done rest
    | .comma =>
      if depth = 0 then splitItems? 0 [] (item.reverse :: done) rest
      else splitItems? depth (token :: item) done rest
    | _ => splitItems? depth (token :: item) done rest

/-- The outermost bracket of a value and the items inside it. -/
def items? (tokens : List Token) : Option (Bracket × List (List Token)) :=
  match tokens with
  | .openArray :: inside =>
    if inside.getLast? = some .closeArray then (splitItems? 0 [] [] inside).map (.array, ·)
    else none
  | .openObject :: inside =>
    if inside.getLast? = some .closeObject then (splitItems? 0 [] [] inside).map (.object, ·)
    else none
  | _ => none

end DedupArchive.Json
