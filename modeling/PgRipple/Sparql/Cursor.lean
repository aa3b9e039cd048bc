import PgRipple.Dictionary.Inline

/-!
# Paged cursors

`CursorIter` fetches the rows of a portal page by page and hands them on one by one. Before
it looks for another row it compares the number of rows handed on with
`sparql_max_rows`. It does not know then whether there is another row, so a result of just
so many rows is taken for a longer one.
-/

namespace PgRipple.Sparql

open Dictionary

/-- JSON values of all kinds. -/
inductive JsonValue where
  | null
  | number (n : Int)
  | string (s : Text)
  | object (fields : List (Text × JsonValue))

/-- What a column of a row holds. -/
inductive Datum where
  | bigint (n : Int)
  | text (s : Text)
  deriving DecidableEq, Repr

/-- The columns of a result and how they are shown. -/
structure Columns where
  vars : List Text
  rawNumericVars : List Text
  rawTextVars : List Text
  rawIriVars : List Text
  rawDoubleVars : List Text
  typed : Bool

/-- The dictionary, as far as a page is decoded with it. -/
structure Decoder (κ : Type) where
  /-- What `batch_decode` returns for an id. -/
  decode : Int → Option Text
  /-- What `batch_decode_full` returns for an id, and `decode_full` as well. -/
  decodeFull : Int → Option κ
  /-- `typed_dictionary_value`, which looks terms up in the page and else in the dictionary. -/
  typedDictionaryValue : (Int → Option κ) → Int → JsonValue

section Pages

variable {κ : Type} (cols : Columns) (dec : Decoder κ)

/-- The variables whose columns are of type `text`. -/
def Columns.isText (var : Text) : Bool :=
  var ∈ cols.rawTextVars || var ∈ cols.rawIriVars || var ∈ cols.rawDoubleVars

/-- `row.get(i)`; a value of the wrong type is dropped. -/
def Columns.readValue (var : Text) : Option Datum → Option Datum
  | some (.text s) => if cols.isText var then some (.text s) else none
  | some (.bigint n) => if cols.isText var then none else some (.bigint n)
  | none => none

/-- The columns of a row with their values. -/
def Columns.readRow (row : List (Option Datum)) : List (Text × Option Datum) :=
  (cols.vars.zip row).map fun c => (c.1, cols.readValue c.1 c.2)

/-- `all_ids`. -/
def Columns.idsOf (page : List (List (Text × Option Datum))) : List Int :=
  page.flatMap fun row => row.filterMap fun c =>
    match c.2 with
    | some (.bigint id) => if c.1 ∈ cols.rawNumericVars then none else some id
    | _ => none

/-- `typed_text_value`. -/
def typedTextValue (text : Text) (iri double : Bool) : JsonValue :=
  if iri then .object [("type".toList, .string "uri".toList), ("value".toList, .string text)]
  else if double then
    .object [("type".toList, .string "literal".toList), ("value".toList, .string text),
      ("datatype".toList, .string (xsd "double"))]
  else .object [("type".toList, .string "literal".toList), ("value".toList, .string text)]

/-- The JSON value of a column, from the maps of the page. -/
def cellJson (decodeMap : Int → Option Text) (typedDecodeMap : Int → Option κ) (var : Text) :
    Option Datum → JsonValue
  | none => .null
  | some (.text text) =>
    if cols.typed then typedTextValue text (var ∈ cols.rawIriVars) (var ∈ cols.rawDoubleVars)
    else if var ∈ cols.rawIriVars then .string ('<' :: text ++ ['>'])
    else if var ∈ cols.rawDoubleVars then
      .string ('"' :: text ++ "\"^^<".toList ++ xsd "double" ++ ['>'])
    else .string ('"' :: (text.flatMap fun c => if c = '"' then ['\\', '"'] else [c]) ++ ['"'])
  | some (.bigint id) =>
    if cols.typed then
      if var ∈ cols.rawNumericVars then
        .object [("type".toList, .string "literal".toList),
          ("value".toList, .string (toString id).toList),
          ("datatype".toList, .string (xsd "integer"))]
      else dec.typedDictionaryValue (fun id => (typedDecodeMap id).or (dec.decodeFull id)) id
    else if var ∈ cols.rawNumericVars then .number id
    else ((decodeMap id).map .string).getD .null

def rowJson (decodeMap : Int → Option Text) (typedDecodeMap : Int → Option κ)
    (row : List (Text × Option Datum)) : JsonValue :=
  .object (row.map fun c => (c.1, cellJson cols dec decodeMap typedDecodeMap c.1 c.2))

/-- The rows of a page, decoded with one request for all their ids. -/
def decodePage (raw : List (List (Option Datum))) : List JsonValue :=
  let page := raw.map cols.readRow
  let allIds := cols.idsOf page
  let decodeMap (id : Int) : Option Text := if id ∈ allIds then dec.decode id else none
  let typedDecodeMap (id : Int) : Option κ :=
    if id ∈ allIds ∧ 0 ≤ id then dec.decodeFull id else none
  page.map (rowJson cols dec decodeMap typedDecodeMap)

/-- A row decoded on its own. -/
def decodeRow (row : List (Option Datum)) : JsonValue :=
  rowJson cols dec dec.decode dec.decodeFull (cols.readRow row)

end Pages

inductive CursorError where
  | findCursorFailed
  | indexOutOfBounds
  /-- `PT640: SPARQL result set exceeded sparql_max_rows limit of {}`. -/
  | limitExceeded (maxRows : Int)
  deriving DecidableEq, Repr

structure CursorIter (κ : Type) where
  columns : Columns
  decoder : Decoder κ
  /-- The rows that the portal has left; it is closed by an empty fetch. -/
  portal : Option (List (List (Option Datum)))
  pageSize : Nat
  page : List JsonValue
  pagePos : Nat
  done : Bool
  /-- Positive, or there is no limit. -/
  maxRows : Int
  rowsReturned : Int
  overflowAction : Text

/-- What `next` returns. -/
structure Next (κ : Type) where
  item : Option JsonValue
  /-- `PT640: SPARQL result set truncated to {} rows (sparql_max_rows)`. -/
  warning : Option Int
  iter : CursorIter κ

/-- What a caller sees of a run. -/
structure Output where
  rows : List JsonValue
  warnings : List Int
  error : Option CursorError

namespace CursorIter

variable {κ : Type}

/-- `CursorIter::new`, with the rows of the portal and the settings. -/
def new (columns : Columns) (decoder : Decoder κ) (rows : List (List (Option Datum)))
    (exportBatchSize maxRows : Int) (overflowAction : Option Text) : CursorIter κ where
  columns := columns
  decoder := decoder
  portal := some rows
  pageSize := (max exportBatchSize 1).toNat
  page := []
  pagePos := 0
  done := false
  maxRows := maxRows
  rowsReturned := 0
  overflowAction := overflowAction.getD "warn".toList

/-- `fetch_page`. -/
def fetchPage (c : CursorIter κ) : Except CursorError (CursorIter κ) :=
  match c.portal with
  | none => .error .findCursorFailed
  | some rows =>
    let raw := rows.take c.pageSize
    if raw.isEmpty then .ok { c with portal := none, done := true }
    else .ok
      { c with
        portal := some (rows.drop c.pageSize)
        page := decodePage c.columns c.decoder raw
        pagePos := 0 }

/-- The end of `next`: a row of the current page, unless the portal had none. -/
def takeRow (c : CursorIter κ) : Except CursorError (Next κ) :=
  if c.done then .ok ⟨none, none, c⟩
  else
    match c.page[c.pagePos]? with
    | none => .error .indexOutOfBounds
    | some item =>
      .ok ⟨some item, none,
        { c with pagePos := c.pagePos + 1, rowsReturned := c.rowsReturned + 1 }⟩

/-- The limit is reached. -/
def Full (c : CursorIter κ) : Prop := 0 < c.maxRows ∧ c.maxRows ≤ c.rowsReturned

instance (c : CursorIter κ) : Decidable c.Full := instDecidableAnd

/-- `next`. -/
def next (c : CursorIter κ) : Except CursorError (Next κ) :=
  if c.done then .ok ⟨none, none, c⟩
  else if c.Full then
    if c.overflowAction = "error".toList then .error (.limitExceeded c.maxRows)
    else .ok ⟨none, if c.rowsReturned = c.maxRows then some c.maxRows else none, c⟩
  else if c.page.length ≤ c.pagePos then c.fetchPage.bind takeRow
  else c.takeRow

/-- A caller asks for rows until there is none; `none` if the fuel runs out. -/
def collect : Nat → CursorIter κ → Option Output
  | 0, _ => none
  | fuel + 1, c =>
    match c.next with
    | .error e => some ⟨[], [], some e⟩
    | .ok ⟨none, warning, _⟩ => some ⟨[], warning.toList, none⟩
    | .ok ⟨some item, warning, c'⟩ =>
      (collect fuel c').map fun out =>
        ⟨item :: out.rows, warning.toList ++ out.warnings, out.error⟩

end CursorIter

/-- The limit is exceeded. -/
def Exceeds (maxRows : Int) (n : Nat) : Prop := 0 < maxRows ∧ maxRows < n

instance (maxRows : Int) (n : Nat) : Decidable (Exceeds maxRows n) := instDecidableAnd

/-- The first rows in order, each once, and word of an overflow just if there is one. -/
structure PagedExactly (rows : List JsonValue) (maxRows : Int) (overflowAction : Text)
    (out : Output) : Prop where
  handedOn : out.rows = if 0 < maxRows then rows.take maxRows.toNat else rows
  error : out.error =
    if Exceeds maxRows rows.length ∧ overflowAction = "error".toList
      then some (.limitExceeded maxRows) else none
  warnings : out.warnings =
    if Exceeds maxRows rows.length ∧ overflowAction ≠ "error".toList then [maxRows] else []

section Decode

variable {κ : Type} {cols : Columns} {dec : Decoder κ} {page : List (List (Text × Option Datum))}

theorem mem_idsOf {row : List (Text × Option Datum)} (hrow : row ∈ page) {var : Text} {id : Int}
    (hc : (var, some (.bigint id)) ∈ row) (dictionary : var ∉ cols.rawNumericVars) :
    id ∈ cols.idsOf page := by
  rw [Columns.idsOf, List.mem_flatMap]
  exact ⟨row, hrow, List.mem_filterMap.mpr ⟨_, hc, if_neg dictionary⟩⟩

/-- The ids of a page are all asked for, so each row is decoded as if on its own. -/
theorem decodePage_eq (raw : List (List (Option Datum))) :
    decodePage cols dec raw = raw.map (decodeRow cols dec) := by
  rw [decodePage, List.map_map]
  refine List.map_congr_left fun row hrow => ?_
  have hrow : cols.readRow row ∈ raw.map cols.readRow := List.mem_map_of_mem hrow
  rw [Function.comp_apply, decodeRow, rowJson, rowJson]
  congr 1
  refine List.map_congr_left fun c hc => ?_
  obtain ⟨var, value⟩ := c
  congr 1
  cases value with
  | none => rfl
  | some value =>
    cases value with
    | text s => rfl
    | bigint id =>
      rw [cellJson, cellJson]
      have full : (fun x => (if x ∈ cols.idsOf (raw.map cols.readRow) ∧ 0 ≤ x then
          dec.decodeFull x else none).or (dec.decodeFull x)) =
            fun x => (dec.decodeFull x).or (dec.decodeFull x) := by
        funext x
        split
        · rfl
        · rw [Option.or_self, Option.none_or]
      rw [full]
      by_cases numeric : var ∈ cols.rawNumericVars
      · simp only [if_pos numeric]
      · rw [if_pos (mem_idsOf hrow hc numeric)]

end Decode

namespace CursorIter

variable {κ : Type} {c : CursorIter κ} {x : JsonValue} {xs : List JsonValue}

/-- The rows that are still to be handed on. -/
def left (c : CursorIter κ) : List JsonValue :=
  c.page.drop c.pagePos ++ (c.portal.getD []).map (decodeRow c.columns c.decoder)

/-- The portal is open, and a page has room for a row. -/
structure Open (c : CursorIter κ) : Prop where
  running : c.done = false
  portal : c.portal.isSome = true
  pageSize : 0 < c.pageSize

theorem open_new {columns : Columns} {decoder : Decoder κ} {rows : List (List (Option Datum))}
    {exportBatchSize maxRows : Int} {overflowAction : Option Text} :
    (new columns decoder rows exportBatchSize maxRows overflowAction).Open where
  running := rfl
  portal := rfl
  pageSize := by
    show 0 < (max exportBatchSize 1).toNat
    omega

/-- A row of the page is handed on without a look at the portal. -/
theorem next_of_page (ready : c.Open) (room : ¬ c.Full) (rest : c.page.drop c.pagePos = x :: xs) :
    c.next = .ok ⟨some x, none,
      { c with pagePos := c.pagePos + 1, rowsReturned := c.rowsReturned + 1 }⟩ := by
  have inside : ¬ c.page.length ≤ c.pagePos := by
    intro spent
    rw [List.drop_eq_nil_of_le spent] at rest
    cases rest
  have item : c.page[c.pagePos]? = some x := by
    rw [← List.head?_drop, rest, List.head?_cons]
  have running : ¬ c.done = true := by simp [ready.running]
  rw [next, if_neg running, if_neg room, if_neg inside, takeRow, if_neg running, item]

/-- At the end of a page the next one is fetched first. -/
theorem next_of_portal (ready : c.Open) (room : ¬ c.Full) {row : List (Option Datum)}
    {rows : List (List (Option Datum))} (portal : c.portal = some (row :: rows))
    (spent : c.page.length ≤ c.pagePos) :
    c.next = .ok ⟨some (decodeRow c.columns c.decoder row), none,
      { c with
        portal := some ((row :: rows).drop c.pageSize)
        page := ((row :: rows).take c.pageSize).map (decodeRow c.columns c.decoder)
        pagePos := 1
        rowsReturned := c.rowsReturned + 1 }⟩ := by
  obtain ⟨size, hsize⟩ : ∃ size, c.pageSize = size + 1 := ⟨c.pageSize - 1, by
    have := ready.pageSize
    omega⟩
  have running : ¬ c.done = true := by simp [ready.running]
  have fetched : c.fetchPage = .ok { c with
      portal := some ((row :: rows).drop c.pageSize)
      page := ((row :: rows).take c.pageSize).map (decodeRow c.columns c.decoder)
      pagePos := 0 } := by
    rw [fetchPage, portal]
    simp only [hsize, List.take_succ_cons, List.isEmpty_cons, decodePage_eq]
    rfl
  rw [next, if_neg running, if_neg room, if_pos spent, fetched]
  simp only [Except.bind, takeRow, if_neg running, hsize, List.take_succ_cons, List.map_cons,
    List.getElem?_cons_zero, Nat.zero_add]

theorem next_of_empty (ready : c.Open) (room : ¬ c.Full) (portal : c.portal = some [])
    (spent : c.page.length ≤ c.pagePos) :
    c.next = .ok ⟨none, none, { c with portal := none, done := true }⟩ := by
  have running : ¬ c.done = true := by simp [ready.running]
  have fetched : c.fetchPage = .ok { c with portal := none, done := true } := by
    rw [fetchPage, portal]
    simp only [List.take_nil, List.isEmpty_nil, if_true]
  rw [next, if_neg running, if_neg room, if_pos spent, fetched]
  rfl

theorem next_of_left_nil (ready : c.Open) (room : ¬ c.Full) (none_ : c.left = []) :
    ∃ c', c.next = .ok ⟨none, none, c'⟩ := by
  obtain ⟨rows, portal⟩ := Option.isSome_iff_exists.mp ready.portal
  rw [left, List.append_eq_nil_iff, portal, Option.getD_some, List.map_eq_nil_iff] at none_
  obtain ⟨spent, rfl⟩ := none_
  exact ⟨_, next_of_empty ready room portal (List.drop_eq_nil_iff.mp spent)⟩

theorem next_of_left_cons (ready : c.Open) (room : ¬ c.Full) (some_ : c.left = x :: xs) :
    ∃ c', c.next = .ok ⟨some x, none, c'⟩ ∧ c'.Open ∧ c'.left = xs ∧
      c'.rowsReturned = c.rowsReturned + 1 ∧ c'.maxRows = c.maxRows ∧
      c'.overflowAction = c.overflowAction := by
  obtain ⟨rows, portal⟩ := Option.isSome_iff_exists.mp ready.portal
  rw [left, portal, Option.getD_some] at some_
  cases rest : c.page.drop c.pagePos with
  | cons y ys =>
    rw [rest, List.cons_append, List.cons.injEq] at some_
    obtain ⟨rfl, rfl⟩ := some_
    refine ⟨_, next_of_page ready room rest, ⟨ready.running, ready.portal, ready.pageSize⟩, ?_,
      rfl, rfl, rfl⟩
    have tail : c.page.drop (c.pagePos + 1) = ys := by
      rw [← List.drop_drop, rest, List.drop_one, List.tail_cons]
    rw [left, tail, portal, Option.getD_some]
  | nil =>
    rw [rest, List.nil_append] at some_
    obtain ⟨row, rows', rfl, rfl, rfl⟩ := List.map_eq_cons_iff.mp some_
    refine ⟨_, next_of_portal ready room portal (List.drop_eq_nil_iff.mp rest),
      ⟨ready.running, rfl, ready.pageSize⟩, ?_, rfl, rfl, rfl⟩
    have whole : (row :: rows').take c.pageSize ++ (row :: rows').drop c.pageSize = row :: rows' :=
      List.take_append_drop _ _
    obtain ⟨size, hsize⟩ : ∃ size, c.pageSize = size + 1 := ⟨c.pageSize - 1, by
      have := ready.pageSize
      omega⟩
    simp only [left, hsize, List.take_succ_cons, List.drop_succ_cons, List.map_cons, List.drop_zero,
      Option.getD_some, ← List.map_append, List.take_append_drop]

/-- At the limit the caller is told of an overflow, whatever is left. -/
theorem next_of_full (ready : c.Open) (full : c.Full) :
    c.next = if c.overflowAction = "error".toList then .error (.limitExceeded c.maxRows)
      else .ok ⟨none, if c.rowsReturned = c.maxRows then some c.maxRows else none, c⟩ := by
  have running : ¬ c.done = true := by simp [ready.running]
  rw [next, if_neg running]
  exact if_pos full

/-- The rows that are left will reach the limit. -/
def Reaches (c : CursorIter κ) : Prop :=
  0 < c.maxRows ∧ c.maxRows ≤ c.rowsReturned + c.left.length

instance (c : CursorIter κ) : Decidable c.Reaches := instDecidableAnd

/-- A run hands on what is left up to the limit, and reports an overflow if it gets there. -/
theorem collect_eq {fuel : Nat} (ready : c.Open)
    (within : 0 < c.maxRows → c.rowsReturned ≤ c.maxRows) (enough : c.left.length < fuel) :
    collect fuel c = some
      ⟨if 0 < c.maxRows then c.left.take (c.maxRows - c.rowsReturned).toNat else c.left,
        if c.Reaches ∧ c.overflowAction ≠ "error".toList then [c.maxRows] else [],
        if c.Reaches ∧ c.overflowAction = "error".toList then some (.limitExceeded c.maxRows)
          else none⟩ := by
  induction fuel generalizing c with
  | zero => omega
  | succ fuel ih =>
    rw [collect]
    by_cases full : c.Full
    · obtain ⟨limited, reached⟩ := full
      have equal : c.rowsReturned = c.maxRows := le_antisymm (within limited) reached
      have reaches : c.Reaches := ⟨limited, by omega⟩
      have nothing : (c.maxRows - c.rowsReturned).toNat = 0 := by omega
      rw [next_of_full ready ⟨limited, reached⟩, if_pos limited, nothing, List.take_zero]
      by_cases error : c.overflowAction = "error".toList
      · simp only [error, reaches, ne_eq, not_true_eq_false, and_false, if_false,
          and_self, if_true]
      · simp only [if_pos equal, error, reaches, ne_eq, not_false_eq_true, and_self,
          if_true, and_false, if_false, Option.toList_some]
    · cases rest : c.left with
      | nil =>
        obtain ⟨c', nextEq⟩ := next_of_left_nil ready full rest
        have short : ¬ c.Reaches := by
          rintro ⟨limited, reached⟩
          rw [rest] at reached
          exact full ⟨limited, by simpa using reached⟩
        rw [nextEq]
        simp only [short, false_and, if_false, List.take_nil, ite_self, Option.toList_none]
      | cons x xs =>
        obtain ⟨c', nextEq, ready', left', returned', maxRows', action'⟩ :=
          next_of_left_cons ready full rest
        have within' : 0 < c'.maxRows → c'.rowsReturned ≤ c'.maxRows := by
          intro limited
          rw [maxRows'] at limited
          have below : ¬ c.maxRows ≤ c.rowsReturned := fun le => full ⟨limited, le⟩
          omega
        have enough' : c'.left.length < fuel := by
          rw [rest, List.length_cons] at enough
          rw [left']
          omega
        have reaches : c'.Reaches ↔ c.Reaches := by
          rw [Reaches, Reaches, left', returned', maxRows', rest, List.length_cons]
          refine and_congr_right fun _ => ?_
          push_cast
          omega
        rw [nextEq]
        simp only [ih ready' within' enough', Option.map_some, reaches, action', maxRows', left',
          returned', Option.toList_none, List.nil_append]
        by_cases limited : 0 < c.maxRows
        · have below : ¬ c.maxRows ≤ c.rowsReturned := fun le => full ⟨limited, le⟩
          have room : (c.maxRows - c.rowsReturned).toNat =
              (c.maxRows - (c.rowsReturned + 1)).toNat + 1 := by omega
          simp only [if_pos limited, room, List.take_succ_cons]
        · simp only [if_neg limited]

end CursorIter

/-- A run comes to an end, and is exact just if there is no limit or the number of rows is not
the limit. -/
theorem cursor_exact_iff {κ : Type} (columns : Columns) (decoder : Decoder κ)
    (rows : List (List (Option Datum))) (exportBatchSize maxRows : Int)
    (overflowAction : Option Text) (extra : Nat) :
    ∃ out, (CursorIter.new columns decoder rows exportBatchSize maxRows overflowAction).collect
        (rows.length + 1 + extra) = some out ∧
      (PagedExactly (rows.map (decodeRow columns decoder)) maxRows
          (overflowAction.getD "warn".toList) out ↔
        maxRows ≤ 0 ∨ (rows.length : Int) ≠ maxRows) := by
  have left : (CursorIter.new columns decoder rows exportBatchSize maxRows overflowAction).left =
      rows.map (decodeRow columns decoder) := rfl
  have enough : (CursorIter.new columns decoder rows exportBatchSize maxRows
      overflowAction).left.length < rows.length + 1 + extra := by
    rw [left, List.length_map]
    omega
  refine ⟨_, CursorIter.collect_eq CursorIter.open_new (fun limited => limited.le) enough, ?_⟩
  have reaches : (CursorIter.new columns decoder rows exportBatchSize maxRows
      overflowAction).Reaches ↔ 0 < maxRows ∧ maxRows ≤ rows.length := by
    rw [CursorIter.Reaches, left, List.length_map]
    show 0 < maxRows ∧ maxRows ≤ 0 + (rows.length : Int) ↔ _
    rw [Int.zero_add]
  have start : (CursorIter.new columns decoder rows exportBatchSize maxRows
      overflowAction).maxRows - (CursorIter.new columns decoder rows exportBatchSize maxRows
      overflowAction).rowsReturned = maxRows := Int.sub_zero maxRows
  rw [left, start]
  constructor
  · rintro ⟨-, error, warnings⟩
    by_contra limit
    obtain ⟨limited, same⟩ := not_or.mp limit
    have reached : 0 < maxRows ∧ maxRows ≤ rows.length := by omega
    have within : ¬ Exceeds maxRows (rows.map (decodeRow columns decoder)).length := by
      rw [Exceeds, List.length_map]
      omega
    by_cases action : overflowAction.getD "warn".toList = "error".toList
    · have raised := error.symm.trans (if_pos ⟨reaches.mpr reached, action⟩)
      rw [if_neg fun h => within h.1] at raised
      cases raised
    · have warned := warnings.symm.trans (if_pos ⟨reaches.mpr reached, action⟩)
      rw [if_neg fun h => within h.1] at warned
      cases warned
  · intro limit
    have same : (CursorIter.new columns decoder rows exportBatchSize maxRows
        overflowAction).Reaches ↔ Exceeds maxRows
          (rows.map (decodeRow columns decoder)).length := by
      rw [reaches, Exceeds, List.length_map]
      omega
    refine ⟨rfl, ?_, ?_⟩
    · exact if_congr (and_congr_left fun _ => same) rfl rfl
    · exact if_congr (and_congr_left fun _ => same) rfl rfl

/-- One column of literals. -/
def oneColumn : Columns := ⟨["x".toList], [], ["x".toList], [], [], false⟩

def noTerms : Decoder Unit := ⟨fun _ => none, fun _ => none, fun _ _ => .null⟩

/-- One row, and a limit of one row. -/
theorem not_cursor_exact :
    ¬ ∀ (columns : Columns) (decoder : Decoder Unit) (rows : List (List (Option Datum)))
      (exportBatchSize maxRows : Int) (overflowAction : Option Text) (fuel : Nat),
      rows.length < fuel →
      ∃ out, (CursorIter.new columns decoder rows exportBatchSize maxRows overflowAction).collect
          fuel = some out ∧
        PagedExactly (rows.map (decodeRow columns decoder)) maxRows
          (overflowAction.getD "warn".toList) out := by
  intro exact
  obtain ⟨out, ran, -, error, -⟩ :=
    exact oneColumn noTerms [[some (.text "a".toList)]] 10000 1 (some "error".toList) 2 (by decide)
  have failed : (CursorIter.new oneColumn noTerms [[some (.text "a".toList)]] 10000 1
      (some "error".toList)).collect 2 =
    some ⟨[decodeRow oneColumn noTerms [some (.text "a".toList)]], [], some (.limitExceeded 1)⟩ :=
    rfl
  rw [failed] at ran
  cases ran
  have within : ¬ Exceeds 1 1 := by decide
  rw [if_neg fun h => within h.1] at error
  cases error

end PgRipple.Sparql
