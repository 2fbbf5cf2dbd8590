import Schemata.Yaml.Token

namespace Schemata

namespace Yaml

/-- What may be written before a node. -/
structure Properties where
  anchor : Option String := none
  tag : Option String := none

inductive Node where
  | alias (name : String)
  | scalar (properties : Properties) (text : String) (plain : Bool)
  | sequence (properties : Properties) (items : List Node)
  | mapping (properties : Properties) (entries : List (Node × Node))

instance : Inhabited Node := ⟨.alias ""⟩

namespace Node

/-- A node that is not written. -/
def missing (properties : Properties := {}) : Node := .scalar properties "" true

/-- What is left of the tokens after something was read. -/
abbrev Read (α : Type) := α × List Token

/-- The tokens that may follow a key or value that is not written, in block style. -/
def endsBlockPart : Option Token → Bool
  | some .key => true
  | some .value => true
  | some .blockEnd => true
  | _ => false

/-- The tag that a handle and a suffix stand for, by the handles that are declared. -/
def resolveTag (handles : List (String × String)) (handle suffix : String) : Option String :=
  if handle.isEmpty then some suffix else (handles.lookup handle).map (· ++ suffix)

/-- Reads the tag and the anchor of a node, in either order. -/
def readProperties (handles : List (String × String)) : List Token → Option (Read Properties)
  | .anchor name :: .tag handle suffix :: rest =>
    (resolveTag handles handle suffix).map fun tag => (⟨some name, some tag⟩, rest)
  | .tag handle suffix :: .anchor name :: rest =>
    (resolveTag handles handle suffix).map fun tag => (⟨some name, some tag⟩, rest)
  | .anchor name :: rest => some (⟨some name, none⟩, rest)
  | .tag handle suffix :: rest => (resolveTag handles handle suffix).map fun tag => (⟨none, some tag⟩, rest)
  | rest => some ({}, rest)

mutual
/-- Reads a node: in block style if `block`, and also as a sequence at the indentation of its mapping if
`indentless`. -/
def read (handles : List (String × String)) (block indentless : Bool) : Nat → List Token → Option (Read Node)
  | 0, _ => none
  | _ + 1, .alias name :: rest => some (.alias name, rest)
  | fuel + 1, tokens => do
    let (properties, tokens) ← readProperties handles tokens
    let (node, tokens) : Read Node ← match tokens with
      | .scalar text plain :: rest => some (Node.scalar properties text plain, rest)
      | .flowSequenceStart :: rest => do
        let (items, rest) ← readFlowItems handles fuel rest
        return (.sequence properties items, rest)
      | .flowMappingStart :: rest => do
        let (entries, rest) ← readFlowEntries handles fuel rest
        return (.mapping properties entries, rest)
      | .blockEntry :: rest =>
        if indentless then do
          let (items, rest) ← readIndentlessItems handles fuel (.blockEntry :: rest)
          return (.sequence properties items, rest)
        else if properties.anchor.isSome || properties.tag.isSome then
          some (missing properties, .blockEntry :: rest)
        else none
      | .blockSequenceStart :: rest =>
        if block then do
          let (items, rest) ← readBlockItems handles fuel rest
          return (.sequence properties items, rest)
        else if properties.anchor.isSome || properties.tag.isSome then
          some (missing properties, .blockSequenceStart :: rest)
        else none
      | .blockMappingStart :: rest =>
        if block then do
          let (entries, rest) ← readBlockEntries handles fuel rest
          return (.mapping properties entries, rest)
        else if properties.anchor.isSome || properties.tag.isSome then
          some (missing properties, .blockMappingStart :: rest)
        else none
      | rest =>
        if properties.anchor.isSome || properties.tag.isSome then some (missing properties, rest) else none
    return (node, tokens)

/-- Reads the entries of a block sequence. -/
def readBlockItems (handles : List (String × String)) : Nat → List Token → Option (Read (List Node))
  | fuel + 1, .blockEntry :: rest => do
    let (first, rest) : Read Node ← match rest.head? with
      | some .blockEntry => some (missing, rest)
      | some .blockEnd => some (missing, rest)
      | _ => read handles true false fuel rest
    let (others, rest) ← readBlockItems handles fuel rest
    return (first :: others, rest)
  | _ + 1, .blockEnd :: rest => some ([], rest)
  | _, _ => none

/-- Reads the entries of a sequence at the indentation of its mapping. -/
def readIndentlessItems (handles : List (String × String)) : Nat → List Token → Option (Read (List Node))
  | 0, _ => none
  | fuel + 1, .blockEntry :: rest => do
    let (first, rest) : Read Node ← match rest.head? with
      | some .blockEntry => some (missing, rest)
      | other => if endsBlockPart other then some (missing, rest) else read handles true false fuel rest
    let (others, rest) ← readIndentlessItems handles fuel rest
    return (first :: others, rest)
  | _ + 1, rest => some ([], rest)

/-- Reads a key or a value of a block mapping, which may be missing. -/
def readBlockPart (handles : List (String × String)) : Nat → List Token → Option (Read Node)
  | 0, _ => none
  | fuel + 1, tokens => if endsBlockPart tokens.head? then some (missing, tokens) else read handles true true fuel tokens

/-- Reads the entries of a block mapping. -/
def readBlockEntries (handles : List (String × String)) : Nat → List Token → Option (Read (List (Node × Node)))
  | fuel + 1, .key :: rest => do
    let (key, rest) ← readBlockPart handles fuel rest
    let (value, rest) : Read Node ← match rest with
      | .value :: rest => readBlockPart handles fuel rest
      | rest => some (missing, rest)
    let (others, rest) ← readBlockEntries handles fuel rest
    return ((key, value) :: others, rest)
  | _ + 1, .blockEnd :: rest => some ([], rest)
  | _, _ => none

/-- Reads the entries of a flow sequence, up to its end. -/
def readFlowItems (handles : List (String × String)) : Nat → List Token → Option (Read (List Node))
  | 0, _ => none
  | _ + 1, .flowSequenceEnd :: rest => some ([], rest)
  | fuel + 1, tokens => do
    let (first, rest) ← readFlowItem handles fuel tokens
    let (others, rest) ← readMoreFlowItems handles fuel rest
    return (first :: others, rest)

/-- Reads the entries of a flow sequence after an entry. -/
def readMoreFlowItems (handles : List (String × String)) : Nat → List Token → Option (Read (List Node))
  | fuel + 1, .flowEntry :: rest =>
    match rest with
    | .flowSequenceEnd :: rest => some ([], rest)
    | rest => do
      let (first, rest) ← readFlowItem handles fuel rest
      let (others, rest) ← readMoreFlowItems handles fuel rest
      return (first :: others, rest)
  | _ + 1, .flowSequenceEnd :: rest => some ([], rest)
  | _, _ => none

/-- Reads an entry of a flow sequence; one with a key is a mapping of its own. -/
def readFlowItem (handles : List (String × String)) : Nat → List Token → Option (Read Node)
  | fuel + 1, .key :: rest => do
    let (key, rest) : Read Node ← match rest with
      | .value :: rest => some (missing, rest)
      | .flowEntry :: rest => some (missing, rest)
      | .flowSequenceEnd :: rest => some (missing, rest)
      | rest => read handles false false fuel rest
    let (value, rest) : Read Node ← match rest with
      | .value :: .flowEntry :: rest => some (missing, .flowEntry :: rest)
      | .value :: .flowSequenceEnd :: rest => some (missing, .flowSequenceEnd :: rest)
      | .value :: rest => read handles false false fuel rest
      | rest => some (missing, rest)
    return (.mapping {} [(key, value)], rest)
  | fuel + 1, tokens => read handles false false fuel tokens
  | 0, _ => none

/-- Reads the entries of a flow mapping, up to its end. -/
def readFlowEntries (handles : List (String × String)) : Nat → List Token → Option (Read (List (Node × Node)))
  | 0, _ => none
  | _ + 1, .flowMappingEnd :: rest => some ([], rest)
  | fuel + 1, tokens => do
    let (first, rest) ← readFlowPair handles fuel tokens
    let (others, rest) ← readMoreFlowEntries handles fuel rest
    return (first :: others, rest)

/-- Reads the entries of a flow mapping after an entry. -/
def readMoreFlowEntries (handles : List (String × String)) : Nat → List Token → Option (Read (List (Node × Node)))
  | fuel + 1, .flowEntry :: rest =>
    match rest with
    | .flowMappingEnd :: rest => some ([], rest)
    | rest => do
      let (first, rest) ← readFlowPair handles fuel rest
      let (others, rest) ← readMoreFlowEntries handles fuel rest
      return (first :: others, rest)
  | _ + 1, .flowMappingEnd :: rest => some ([], rest)
  | _, _ => none

/-- Reads an entry of a flow mapping; what has no key token is a key without value. -/
def readFlowPair (handles : List (String × String)) : Nat → List Token → Option (Read (Node × Node))
  | fuel + 1, .key :: rest => do
    let (key, rest) : Read Node ← match rest with
      | .value :: rest => some (missing, .value :: rest)
      | .flowEntry :: rest => some (missing, .flowEntry :: rest)
      | .flowMappingEnd :: rest => some (missing, .flowMappingEnd :: rest)
      | rest => read handles false false fuel rest
    let (value, rest) : Read Node ← match rest with
      | .value :: .flowEntry :: rest => some (missing, .flowEntry :: rest)
      | .value :: .flowMappingEnd :: rest => some (missing, .flowMappingEnd :: rest)
      | .value :: rest => read handles false false fuel rest
      | rest => some (missing, rest)
    return ((key, value), rest)
  | fuel + 1, tokens => do
    let (key, rest) ← read handles false false fuel tokens
    return ((key, missing), rest)
  | 0, _ => none
end

/-- The handles that need no declaration. -/
def standardHandles : List (String × String) := [("!", "!"), ("!!", "tag:yaml.org,2002:")]

/-- Reads the directives of a document: the handles that they declare, and whether there was a version. Each
thing is declared at most once, and the version must be 1.1 or 1.2. -/
def readDirectives (version : Bool) (handles : List (String × String)) :
    List Token → Option (Read (Bool × List (String × String)))
  | .version major minor :: rest =>
    if version || major ≠ 1 || (minor ≠ 1 && minor ≠ 2) then none else readDirectives true handles rest
  | .tagHandle handle start :: rest =>
    if (handles.lookup handle).isSome then none else readDirectives version ((handle, start) :: handles) rest
  | rest => some ((version, handles), rest)

/-- Reads the node of a document that starts with its marker. -/
def readContent (handles : List (String × String)) (fuel : Nat) (tokens : List Token) : Option (Read Node) :=
  match tokens.head? with
  | some (.version _ _) => some (missing, tokens)
  | some (.tagHandle _ _) => some (missing, tokens)
  | some .documentStart => some (missing, tokens)
  | some .documentEnd => some (missing, tokens)
  | some .streamEnd => some (missing, tokens)
  | _ => read handles true false fuel tokens

/-- Reads the first document; nothing but its end may follow. A text without content is one that is not
written. -/
def ofTokens (tokens : List Token) : Option Node := do
  let fuel := 4 * tokens.length + 4
  let (node, rest) : Read Node ← match tokens.head? with
    | some .streamEnd => some (missing, tokens)
    | some (.version _ _) => explicit fuel
    | some (.tagHandle _ _) => explicit fuel
    | some .documentStart => explicit fuel
    | _ => read standardHandles true false fuel tokens
  match rest.dropWhile (· == .documentEnd) with
  | [.streamEnd] => return node
  | _ => none
where
  explicit (fuel : Nat) : Option (Read Node) := do
    let ((_, declared), rest) ← readDirectives false [] tokens
    match rest with
    | .documentStart :: rest => readContent (declared ++ standardHandles) fuel rest
    | _ => none

end Node

/-- The node of the only document of a text. -/
def Node.ofText (text : String) : Option Node := (Token.scan text).bind Node.ofTokens

end Yaml

end Schemata
