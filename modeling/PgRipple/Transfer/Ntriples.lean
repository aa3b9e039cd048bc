import PgRipple.Dictionary.Rows
import PgRipple.Lib.Split
import PgRipple.Storage.Export

/-!
# Dumping and loading N-Triples

`export_ntriples` writes one line for each triple of a graph, with the text of each term
as the dictionary prints it. `load_ntriples` reads line by line with a parser of its own,
which finds the end of each term, encodes the term at once, and hands back the rest of the
line.

Both recurse into quoted triples: the dictionary keeps the text of a quoted triple in its
row, and the parser reads `<< s p o >>` at any depth.
-/

namespace PgRipple.Transfer

open Storage Dictionary

section Export

variable (codec : Codec) (labelHash : Text → Nat)

/-- What `for_each_encoded_triple_batch` hands on, one batch after the other. -/
def encodedTriples (batchSize : Nat) (st : Store) (g : TermId) : List Quad :=
  ((Store.forEachEncodedTripleBatch batchSize (some g) st (Store.exportFuel (some g) st)).getD
    []).flatten

/-- `is_ascii_alphanumeric() || c == '_'`. -/
def labelStart (c : Char) : Bool := c.isAlphanum || c = '_'

/-- `validate_bnode_label`. -/
def validateBnodeLabel (nt : Text) : Text :=
  match nt.drop 2 with
  | [] => "_:b".toList ++ (toString (labelHash nt)).toList
  | first :: rest =>
    if labelStart first && rest.all (fun c => labelStart c || c = '.' || c = '-') then nt
    else "_:b".toList ++ (toString (labelHash (first :: rest))).toList

/-- `safe_nt_term`. -/
def safeNtTerm (d : Dict) (id : Int) : Text :=
  let raw := d.formatNtriples codec id
  if "_:".toList.isPrefixOf raw then validateBnodeLabel labelHash raw else raw

/-- The line of a triple, without its line feed. -/
def exportLine (d : Dict) (q : Quad) : Text :=
  safeNtTerm codec labelHash d q.s ++ ' ' :: d.formatNtriples codec q.p ++
    ' ' :: safeNtTerm codec labelHash d q.o ++ " .".toList

/-- `export_ntriples(None)`. -/
def exportNtriples (batchSize : Nat) (d : Dict) (st : Store) : Text :=
  (encodedTriples batchSize st 0).flatMap fun q => exportLine codec labelHash d q ++ ['\n']

end Export

/-- `str::lines`. A carriage return before the line feed is left; every line is trimmed. -/
def lines : Text → List Text
  | [] => []
  | c :: cs =>
    if c = '\n' then [] :: lines cs
    else
      match lines cs with
      | [] => [[c]]
      | line :: rest => (c :: line) :: rest

def trimStart (s : Text) : Text := s.dropWhile isWhitespace

def trimEnd (s : Text) : Text := s.rdropWhile isWhitespace

/-- What a parser returns: an id with the rest of the text, or nothing; and the dictionary,
where what was read before a failure stays encoded. -/
abbrev Parsed := Option (Int × Text) × Dict

/-- The operator `?` after a parser. -/
def Parsed.andThen {α : Type} (r : Parsed) (next : Int → Text → Dict → Option α × Dict) :
    Option α × Dict :=
  match r with
  | (some (id, rest), d) => next id rest d
  | (none, d) => (none, d)

section Parser

variable (codec : Codec) (session : Session) (generation : Int)

def encoded (rest : Text) (r : Int × Dict) : Parsed := (some (r.1, rest), r.2)

/-- The name of a blank node in one load. -/
def scopedLabel (label : Text) : Text := (toString generation).toList ++ ':' :: label

/-- `parse_nt_star_literal`, after the opening quote. -/
def parseNtStarLiteral (s : Text) (d : Dict) : Parsed :=
  match closingQuote s with
  | none => (none, d)
  | some (raw, rest) =>
    let value := unescape raw
    match "^^<".toList.isPrefixOf? rest with
    | some dtRest =>
      match Split.splitOnce ['>'] dtRest with
      | none => (none, d)
      | some (dt, rest) =>
        if dt = xsd "string" then encoded rest (d.encode codec session value .literal)
        else encoded rest (d.encodeTypedLiteral codec session value dt)
    | none =>
      match rest with
      | '@' :: langRest =>
        encoded (langRest.dropWhile fun c => !isWhitespace c)
          (d.encodeLangLiteral codec session value (langRest.takeWhile fun c => !isWhitespace c))
      | _ => encoded rest (d.encode codec session value .literal)

/-- `parse_nt_star_term`. Every level of quoting takes two characters, so the length of the
text is enough fuel. -/
def parseNtStarTerm : (fuel : Nat) → Text → Dict → Parsed
  | 0, _, d => (none, d)
  | fuel + 1, s, d =>
    match trimStart s with
    | '<' :: '<' :: inner =>
      -- `parse_nt_star_quoted_triple`
      (parseNtStarTerm fuel (trimStart inner) d).andThen fun sId rest d =>
        (parseNtStarTerm fuel (trimStart rest) d).andThen fun pId rest d =>
          (parseNtStarTerm fuel (trimStart rest) d).andThen fun oId rest d =>
            match trimStart rest with
            | '>' :: '>' :: rest => encoded rest (d.encodeQuotedTriple codec session sId pId oId)
            | _ => (none, d)
    | '<' :: rest =>
      match Split.splitOnce ['>'] rest with
      | none => (none, d)
      | some (iri, rest) => encoded rest (d.encode codec session iri .iri)
    | '_' :: ':' :: rest =>
      let label := rest.takeWhile fun c => !isWhitespace c
      encoded (rest.dropWhile fun c => !isWhitespace c)
        (d.encode codec session (scopedLabel generation label) .blank)
    | '"' :: rest => parseNtStarLiteral codec session rest d
    | _ => (none, d)

/-- `strip_suffix('.')`. -/
def stripDot (s : Text) : Option Text :=
  if s.getLast? = some '.' then some s.dropLast else none

/-- `parse_nt_star_full_line`: the ids of a line. -/
def parseNtStarFullLine (line : Text) (d : Dict) : Option (Int × Int × Int) × Dict :=
  match stripDot (trimEnd line) with
  | none => (none, d)
  | some line =>
    let line := trimEnd line
    let term := parseNtStarTerm codec session generation (line.length + 1)
    (term line d).andThen fun sId rest d =>
      (term (trimStart rest) d).andThen fun pId rest d =>
        (term (trimStart rest) d).andThen fun oId _ d => (some (sId, pId, oId), d)

end Parser

/-- The state of a load. -/
structure LoadState where
  dict : Dict
  store : Store
  /-- The triples that are not yet stored, grouped by predicate. -/
  byPredicate : List (TermId × List Key)
  total : Nat
  /-- The lines with a warning. -/
  skipped : Nat

/-- `by_predicate.entry(p).or_default().push(…)`. -/
def addTriple (p : TermId) (k : Key) : List (TermId × List Key) → List (TermId × List Key)
  | [] => [(p, [k])]
  | (p', keys) :: rest =>
    if p' = p then (p', keys ++ [k]) :: rest else (p', keys) :: addTriple p k rest

/-- `flush_batch`. -/
def LoadState.flushBatch (session : Session) (s : LoadState) : LoadState :=
  { s with
    store := s.byPredicate.foldl (fun st x => (st.batchInsertEncoded session x.1 x.2).2) s.store
    byPredicate := [] }

/-- `BATCH_SIZE`. -/
def batchSize : Nat := 10000

/-- `promote_rare_predicates`. -/
def promoteRarePredicates (cfg : Config) (st : Store) : Store :=
  let preds := (st.rare.rows.map fun r => r.quad.p).eraseDups
  (preds.filter fun p =>
    cfg.vpPromotionThreshold ≤ (st.rare.rows.filter fun r => r.quad.p = p).length).foldl
      Store.promotePredicate st

section Load

variable (cfg : Config) (codec : Codec) (session : Session) (generation : Int) (strict : Bool)

/-- One line; `none` is the error of strict mode. -/
def loadLine (s : LoadState) (line : Text) : Option LoadState :=
  let trimmed := trim line
  if trimmed = [] ∨ trimmed.head? = some '#' then some s
  else
    match parseNtStarFullLine codec session generation trimmed s.dict with
    | (some (sId, pId, oId), d) =>
      let s := { s with
        dict := d
        byPredicate := addTriple pId ⟨sId, oId, 0⟩ s.byPredicate
        total := s.total + 1 }
      some (if s.total % batchSize = 0 then s.flushBatch session else s)
    | (none, d) => if strict then none else some { s with dict := d, skipped := s.skipped + 1 }

/-- `load_ntriples`. There are no construct rules and no provenance to record. -/
def loadNtriples (data : Text) (d : Dict) (st : Store) : Option LoadState := do
  let s ← (lines data).foldlM (loadLine codec session generation strict) ⟨d, st, [], 0, 0⟩
  let s := s.flushBatch session
  some { s with store := promoteRarePredicates cfg s.store }

end Load

end PgRipple.Transfer
