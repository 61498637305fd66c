import MatchingEngine.ClientApplication
import MatchingEngine.ConfigFile
import MatchingEngine.Foundation.Numeral

/-!
# The test file of a client

Every line of a test file gives a request, with commas between its columns. Empty lines and lines
that start with a number sign are skipped. The tokenizer drops empty columns, so that additional commas
do not matter.

The columns of a line are counted before they are read, and no line is read past its last column.
-/

namespace MatchingEngine

/-- The integer at the start of a text, if it fits a `long` of 64 bits. -/
def stol (text : Text) : Except Failure ℤ :=
  match leadingInt text with
  | none => .error (.invalidArgument "stol")
  | some value => if -2 ^ 63 ≤ value ∧ value < 2 ^ 63 then .ok value else .error (.outOfRange "stol")

/-- The types of requests. -/
inductive ClientRequestType
  | newOrder
  | cancelOrder

namespace ClientRequestColumns

/-- The delimiter of the columns. -/
def seperator (c : Char) : Bool := c == ','

/-- The current column. -/
def column (iter : TokenIterator Char) : Except Failure Text :=
  match iter.dereference with
  | none => .error .pastEnd
  | some text => .ok text

/-- Go to the next column. -/
def nextColumn (iter : TokenIterator Char) : Except Failure (TokenIterator Char) :=
  match iter.increment seperator with
  | none => .error .pastEnd
  | some iter => .ok iter

/-- The type of a request with a number of columns. -/
def typeOf (csvRequest orderType : Text) (numTokens : ℕ) : Except Failure ClientRequestType :=
  if orderType = "NEW_ORDER".toList then
    if numTokens ≠ 6 then
      .error (.invalidArgument s!"Invalid number of tokens for a new order in line : {String.ofList csvRequest}")
    else .ok .newOrder
  else if orderType = "CANCEL_ORDER".toList then
    if numTokens ≠ 5 then
      .error (.invalidArgument s!"Invalid number of tokens for a cancel order in line : {String.ofList csvRequest}")
    else .ok .cancelOrder
  else .error (.invalidArgument "Invalid order type")

/-- The side that a column names. -/
def sideOf (orderSide : Text) : Except Failure OrderSide :=
  if orderSide = "BUY".toList then .ok .buy
  else if orderSide = "SELL".toList then .ok .sell
  else .error (.invalidArgument "Invalid side")

/-- Read a line. `stod` reads the price as a number, or throws; the texts `nan` and `inf`, which the one of the standard
library takes too, have no rational value and are left out. -/
def ofCsvRequest (stod : Text → Except Failure ℚ) (csvRequest : Text) : Except Failure ClientRequestColumns := do
  let iter := TokenIterator.begin seperator csvRequest
  let numTokens := (iter.ahead seperator).length
  if numTokens < 5 then
    throw (.invalidArgument s!"Invalid number of tokens in line : {String.ofList csvRequest}")
  let type ← typeOf csvRequest (← column iter) numTokens
  let iter ← nextColumn iter
  let symbol ← column iter
  let iter ← nextColumn iter
  let side ← sideOf (← column iter)
  let iter ← nextColumn iter
  let targetID ← column iter
  let iter ← nextColumn iter
  match type with
  | .cancelOrder =>
    let origOrderID ← column iter
    return ⟨String.ofList symbol, side, String.ofList targetID, .cancelOrder (String.ofList origOrderID)⟩
  | .newOrder =>
    let price ← stod (← column iter)
    let iter ← nextColumn iter
    let quantity ← stol (← column iter)
    return ⟨String.ofList symbol, side, String.ofList targetID, .newOrder price quantity⟩

end ClientRequestColumns

namespace ClientApplication

/-- Read lines, up to one that is not valid. -/
def loadLines (stod : Text → Except Failure ℚ) : List Text → Except Failure (List ClientRequestColumns)
  | [] => .ok []
  | line :: lines =>
    if line.head? = some '#' ∨ line.length = 0 then loadLines stod lines
    else do
      let columns ← ClientRequestColumns.ofCsvRequest stod line
      return columns :: (← loadLines stod lines)

/-- Read the test file, if it can be opened. -/
def loadRequests (stod : Text → Except Failure ℚ) (csvTestFile : String) (file : Option Text) :
    Except Failure (List ClientRequestColumns) :=
  match file with
  | none => .error (.runtimeError s!"File {csvTestFile} could not be opened")
  | some content => loadLines stod (ConfigFile.lines content)

end ClientApplication

/-- The columns that only one type of request has, as texts. -/
inductive RowDetails
  | newOrder (price quantity : Text)
  | cancelOrder (origOrderID : Text)

/-- The columns of a line, as texts. -/
structure Row where
  symbol : Text
  side : OrderSide
  targetID : Text
  details : RowDetails

namespace Row

/-- The text of a side. -/
def sideText : OrderSide → Text
  | .buy => "BUY".toList
  | .sell => "SELL".toList

/-- The columns in the order of the file. -/
def fields (row : Row) : List Text :=
  match row.details with
  | .newOrder price quantity =>
    ["NEW_ORDER".toList, row.symbol, sideText row.side, row.targetID, price, quantity]
  | .cancelOrder origOrderID =>
    ["CANCEL_ORDER".toList, row.symbol, sideText row.side, row.targetID, origOrderID]

/-- Columns are those of one row only. -/
theorem fields_injective : Function.Injective fields := by
  have hside : Function.Injective sideText := by
    intro first second heq
    cases first <;> cases second <;> first | rfl | cases heq
  rintro ⟨symbol, side, targetID, details⟩ ⟨symbol', side', targetID', details'⟩ heq
  cases details with
  | newOrder price quantity =>
    cases details' with
    | newOrder price' quantity' =>
      simp only [fields, List.cons.injEq, hside.eq_iff] at heq
      obtain ⟨-, rfl, rfl, rfl, rfl, rfl, -⟩ := heq
      rfl
    | cancelOrder origOrderID' => simp [fields] at heq
  | cancelOrder origOrderID =>
    cases details' with
    | newOrder price' quantity' => simp [fields] at heq
    | cancelOrder origOrderID' =>
      simp only [fields, List.cons.injEq, hside.eq_iff] at heq
      obtain ⟨-, rfl, rfl, rfl, rfl, -⟩ := heq
      rfl

/-- The request of a row, unless its numbers cannot be read. -/
def columns (stod : Text → Except Failure ℚ) (row : Row) : Except Failure ClientRequestColumns :=
  match row.details with
  | .newOrder price quantity => do
    let price ← stod price
    let quantity ← stol quantity
    return ⟨String.ofList row.symbol, row.side, String.ofList row.targetID, .newOrder price quantity⟩
  | .cancelOrder origOrderID =>
    return ⟨String.ofList row.symbol, row.side, String.ofList row.targetID, .cancelOrder (String.ofList origOrderID)⟩

end Row

namespace ClientRequestColumns

variable {stod : Text → Except Failure ℚ} {line text : Text} {rest : List Text} {iter : TokenIterator Char}

/-- A computation that has its value goes on with it. -/
theorem ok_bind {α β : Type} (x : α) (f : α → Except Failure β) : ((Except.ok x : Except Failure α) >>= f) = f x := rfl

/-- The first of some columns, if there is one. -/
def firstColumn : List Text → Except Failure Text
  | [] => .error .pastEnd
  | text :: _ => .ok text

/-- The current column is the first one ahead. -/
theorem column_eq (iter : TokenIterator Char) : column iter = firstColumn (iter.ahead seperator) := by
  rw [column, iter.dereference_eq seperator]
  cases iter.ahead seperator with
  | nil => rfl
  | cons text rest => rfl

/-- Where a column is ahead, it is read, and the iterator goes on to the next one. -/
theorem exists_column (h : iter.ahead seperator = text :: rest) :
    column iter = .ok text ∧ ∃ next, nextColumn iter = .ok next ∧ next.ahead seperator = rest := by
  constructor
  · rw [column_eq, h, firstColumn]
  · cases hnext : iter.increment seperator with
    | none => simp [TokenIterator.increment_eq_none.mp hnext] at h
    | some next =>
      refine ⟨next, by rw [nextColumn, hnext], ?_⟩
      rw [TokenIterator.increment_eq hnext, h, List.tail_cons]

/-- A line with too few columns is not read. -/
theorem ofCsvRequest_of_short (h : (tokens seperator line).length < 5) : ofCsvRequest stod line =
    .error (.invalidArgument s!"Invalid number of tokens in line : {String.ofList line}") := by
  rw [ofCsvRequest, TokenIterator.ahead_begin, if_pos h]
  rfl

/-- How a line with enough columns is read. -/
theorem ofCsvRequest_of_tokens {first symbol orderSide targetID fifth : Text}
    (h : tokens seperator line = first :: symbol :: orderSide :: targetID :: fifth :: rest) :
    ofCsvRequest stod line = do
      let type ← typeOf line first (rest.length + 5)
      let side ← sideOf orderSide
      match type with
      | .cancelOrder => return ⟨String.ofList symbol, side, String.ofList targetID, .cancelOrder (String.ofList fifth)⟩
      | .newOrder =>
        let price ← stod fifth
        let quantity ← stol (← firstColumn rest)
        return ⟨String.ofList symbol, side, String.ofList targetID, .newOrder price quantity⟩ := by
  have hahead := TokenIterator.ahead_begin seperator line
  rw [h] at hahead
  obtain ⟨hfirst, second, hsecond, hahead₂⟩ := exists_column hahead
  obtain ⟨hsymbol, third, hthird, hahead₃⟩ := exists_column hahead₂
  obtain ⟨hside, fourth, hfourth, hahead₄⟩ := exists_column hahead₃
  obtain ⟨htarget, fifth', hfifth', hahead₅⟩ := exists_column hahead₄
  obtain ⟨hfifth, last, hlast, hahead₆⟩ := exists_column hahead₅
  have hnot : ¬(first :: symbol :: orderSide :: targetID :: fifth :: rest).length < 5 := by simp
  have hsixth : column last = firstColumn rest := by rw [column_eq, hahead₆]
  rw [ofCsvRequest, hahead, if_neg hnot]
  simp only [hfirst, hsecond, hsymbol, hthird, hside, hfourth, htarget, hfifth', hfifth, hlast, hsixth, ok_bind]
  rfl

/-- The type of a request is that which its first column names, if the number of columns is right. -/
theorem typeOf_cases (line first : Text) (numTokens : ℕ) :
    (first = "NEW_ORDER".toList ∧ numTokens = 6 ∧ typeOf line first numTokens = .ok .newOrder) ∨
      (first = "CANCEL_ORDER".toList ∧ numTokens = 5 ∧ typeOf line first numTokens = .ok .cancelOrder) ∨
      ∃ what, typeOf line first numTokens = .error (.invalidArgument what) := by
  by_cases hnew : first = "NEW_ORDER".toList
  · by_cases hcount : numTokens = 6
    · exact Or.inl ⟨hnew, hcount, by rw [typeOf, if_pos hnew, if_neg (not_not.mpr hcount)]⟩
    · exact Or.inr (Or.inr ⟨_, by rw [typeOf, if_pos hnew, if_pos hcount]⟩)
  · by_cases hcancel : first = "CANCEL_ORDER".toList
    · by_cases hcount : numTokens = 5
      · exact Or.inr (Or.inl ⟨hcancel, hcount, by
          rw [typeOf, if_neg hnew, if_pos hcancel, if_neg (not_not.mpr hcount)]⟩)
      · exact Or.inr (Or.inr ⟨_, by rw [typeOf, if_neg hnew, if_pos hcancel, if_pos hcount]⟩)
    · exact Or.inr (Or.inr ⟨_, by rw [typeOf, if_neg hnew, if_neg hcancel]⟩)

/-- The side is that which the third column names. -/
theorem sideOf_cases (text : Text) :
    (∃ side, text = Row.sideText side ∧ sideOf text = .ok side) ∨ ∃ what, sideOf text = .error (.invalidArgument what) := by
  by_cases hbuy : text = "BUY".toList
  · exact Or.inl ⟨.buy, hbuy, by rw [sideOf, if_pos hbuy]⟩
  · by_cases hsell : text = "SELL".toList
    · exact Or.inl ⟨.sell, hsell, by rw [sideOf, if_neg hbuy, if_pos hsell]⟩
    · exact Or.inr ⟨_, by rw [sideOf, if_neg hbuy, if_neg hsell]⟩

/-- The type and the side of a row are read. -/
theorem read_of_fields {row : Row} {first symbol orderSide targetID fifth : Text}
    (h : first :: symbol :: orderSide :: targetID :: fifth :: rest = row.fields) (line : Text) :
    (∃ type, typeOf line first (rest.length + 5) = .ok type) ∧ ∃ side, sideOf orderSide = .ok side := by
  have hside : ∀ side, sideOf (Row.sideText side) = .ok side := fun side => by
    cases side with
    | buy => rfl
    | sell => rfl
  obtain ⟨_, side, _, details⟩ := row
  cases details with
  | newOrder price quantity =>
    simp only [Row.fields, List.cons.injEq] at h
    obtain ⟨rfl, -, rfl, -, -, rfl⟩ := h
    exact ⟨⟨.newOrder, rfl⟩, side, hside side⟩
  | cancelOrder origOrderID =>
    simp only [Row.fields, List.cons.injEq] at h
    obtain ⟨rfl, -, rfl, -, -, rfl⟩ := h
    exact ⟨⟨.cancelOrder, rfl⟩, side, hside side⟩

/-- A line is that of a row, whose request it gives, or no row has its columns, and it is an invalid argument. -/
theorem ofCsvRequest_cases (stod : Text → Except Failure ℚ) (line : Text) :
    (∃ row : Row, tokens seperator line = row.fields ∧ ofCsvRequest stod line = row.columns stod) ∨
      (∀ row : Row, tokens seperator line ≠ row.fields) ∧ ∃ what, ofCsvRequest stod line = .error (.invalidArgument what) := by
  by_cases hshort : (tokens seperator line).length < 5
  · refine Or.inr ⟨fun row hrow => ?_, _, ofCsvRequest_of_short hshort⟩
    rw [hrow] at hshort
    obtain ⟨symbol, side, targetID, details⟩ := row
    cases details with
    | newOrder => simp [Row.fields] at hshort
    | cancelOrder => simp [Row.fields] at hshort
  · obtain ⟨first, symbol, orderSide, targetID, fifth, rest, htokens⟩ : ∃ first symbol orderSide targetID fifth rest,
        tokens seperator line = first :: symbol :: orderSide :: targetID :: fifth :: rest := by
      rcases htokens : tokens seperator line with
        _ | ⟨first, _ | ⟨symbol, _ | ⟨orderSide, _ | ⟨targetID, _ | ⟨fifth, rest⟩⟩⟩⟩⟩
      · simp [htokens] at hshort
      · simp [htokens] at hshort
      · simp [htokens] at hshort
      · simp [htokens] at hshort
      · simp [htokens] at hshort
      · exact ⟨first, symbol, orderSide, targetID, fifth, rest, rfl⟩
    rw [ofCsvRequest_of_tokens htokens, htokens]
    obtain ⟨rfl, hcount, htype⟩ | ⟨rfl, hcount, htype⟩ | ⟨what, htype⟩ := typeOf_cases line first (rest.length + 5)
    · obtain ⟨side, rfl, hside⟩ | ⟨what, hside⟩ := sideOf_cases orderSide
      · obtain ⟨sixth, rfl⟩ := List.length_eq_one_iff.mp (by omega : rest.length = 1)
        refine Or.inl ⟨⟨symbol, side, targetID, .newOrder fifth sixth⟩, rfl, ?_⟩
        rw [htype, hside]
        rfl
      · refine Or.inr ⟨fun row hrow => ?_, what, by rw [htype, hside]; rfl⟩
        obtain ⟨_, side, hread⟩ := read_of_fields hrow line
        cases hside.symm.trans hread
    · obtain ⟨side, rfl, hside⟩ | ⟨what, hside⟩ := sideOf_cases orderSide
      · obtain rfl := List.eq_nil_of_length_eq_zero (by omega : rest.length = 0)
        refine Or.inl ⟨⟨symbol, side, targetID, .cancelOrder fifth⟩, rfl, ?_⟩
        rw [htype, hside]
        rfl
      · refine Or.inr ⟨fun row hrow => ?_, what, by rw [htype, hside]; rfl⟩
        obtain ⟨_, side, hread⟩ := read_of_fields hrow line
        cases hside.symm.trans hread
    · refine Or.inr ⟨fun row hrow => ?_, what, by rw [htype]; rfl⟩
      obtain ⟨⟨type, hread⟩, _⟩ := read_of_fields hrow line
      cases htype.symm.trans hread

end ClientRequestColumns

namespace ClientApplication

open ConfigFile (lines Skipped skipped_iff lines_append)

variable {stod : Text → Except Failure ℚ} {requests : List ClientRequestColumns}

/-- A line that gives a request. -/
def Gives (stod : Text → Except Failure ℚ) (line : Text) (request : ClientRequestColumns) : Prop :=
  ∃ row : Row, tokens ClientRequestColumns.seperator line = row.fields ∧ row.columns stod = .ok request

/-- Why a line gives no request: an exception about the line, about its quantity, or one of `stod` about its price. -/
def Fails (stod : Text → Except Failure ℚ) (line : Text) (failure : Failure) : Prop :=
  (∃ what, failure = .invalidArgument what) ∨ failure = .outOfRange "stol" ∨
    ∃ (row : Row) (price quantity : Text), tokens ClientRequestColumns.seperator line = row.fields ∧
      row.details = .newOrder price quantity ∧ stod price = .error failure

/-- A line gives a request if it is read. -/
theorem gives_iff {line : Text} {request : ClientRequestColumns} :
    ClientRequestColumns.ofCsvRequest stod line = .ok request ↔ Gives stod line request := by
  obtain ⟨row, hrow, hread⟩ | ⟨hnone, what, hread⟩ := ClientRequestColumns.ofCsvRequest_cases stod line
  · rw [hread]
    refine ⟨fun hok => ⟨row, hrow, hok⟩, ?_⟩
    rintro ⟨other, hother, hok⟩
    obtain rfl := Row.fields_injective (hrow.symm.trans hother)
    exact hok
  · rw [hread]
    refine ⟨nofun, ?_⟩
    rintro ⟨row, hrow, _⟩
    exact absurd hrow (hnone row)

/-- Why a quantity is not read. -/
theorem fails_of_stol {text : Text} {failure : Failure} (h : stol text = .error failure) (line : Text) :
    Fails stod line failure := by
  unfold stol at h
  split at h
  · cases h
    exact Or.inl ⟨"stol", rfl⟩
  · split at h
    · cases h
    · cases h
      exact Or.inr (Or.inl rfl)

/-- Why a line is not read. -/
theorem fails_of_error {line : Text} {failure : Failure} (h : ClientRequestColumns.ofCsvRequest stod line = .error failure) :
    Fails stod line failure := by
  obtain ⟨⟨symbol, side, targetID, details⟩, hrow, hread⟩ | ⟨-, what, hread⟩ :=
    ClientRequestColumns.ofCsvRequest_cases stod line
  · rw [hread, Row.columns] at h
    cases details with
    | cancelOrder origOrderID => cases h
    | newOrder price quantity =>
      cases hprice : stod price with
      | error failure' =>
        simp only [hprice] at h
        cases h
        exact Or.inr (Or.inr ⟨_, price, quantity, hrow, rfl, hprice⟩)
      | ok value =>
        cases hquantity : stol quantity with
        | error failure' =>
          simp only [hprice, hquantity] at h
          cases h
          exact fails_of_stol hquantity line
        | ok value' =>
          simp only [hprice, hquantity] at h
          cases h
  · cases hread.symm.trans h
    exact Or.inl ⟨what, rfl⟩

/-- A line that is not skipped is read before the others. -/
theorem loadLines_cons {line : Text} (hskipped : ¬Skipped line) (content : List Text) :
    loadLines stod (line :: content) = do
      let request ← ClientRequestColumns.ofCsvRequest stod line
      let requests ← loadLines stod content
      return request :: requests :=
  if_neg (skipped_iff.not.mpr hskipped)

/-- Skipped lines are not read. -/
theorem loadLines_of_skipped {line : Text} (hskipped : Skipped line) (content : List Text) :
    loadLines stod (line :: content) = loadLines stod content :=
  if_pos (skipped_iff.mpr hskipped)

/-- Lines are read if all of them, but those that are skipped, give requests. -/
theorem loadLines_eq_ok {content : List Text} :
    loadLines stod content = .ok requests ↔ List.Forall₂ (Gives stod) (content.filter fun line => ¬Skipped line) requests := by
  induction content generalizing requests with
  | nil =>
    rw [List.filter_nil, List.forall₂_nil_left_iff, loadLines, Except.ok.injEq, eq_comm]
  | cons line content ih =>
    by_cases hskipped : Skipped line
    · rw [loadLines_of_skipped hskipped, List.filter_cons_of_neg (by simpa using hskipped), ih]
    · rw [loadLines_cons hskipped, List.filter_cons_of_pos (by simpa using hskipped), List.forall₂_cons_left_iff]
      simp only [← gives_iff, ← ih]
      cases ClientRequestColumns.ofCsvRequest stod line with
      | error failure =>
        refine ⟨nofun, ?_⟩
        rintro ⟨_, _, hread, _⟩
        cases hread
      | ok request =>
        cases loadLines stod content with
        | error failure =>
          refine ⟨nofun, ?_⟩
          rintro ⟨_, _, _, hread, _⟩
          cases hread
        | ok rest =>
          constructor
          · intro hread
            cases hread
            exact ⟨request, rest, rfl, rfl, rfl⟩
          · rintro ⟨_, _, hread, hrest, rfl⟩
            cases hread
            cases hrest
            rfl

/-- Lines are not read because of the first of them that gives no request. -/
theorem exists_failing {content : List Text} {failure : Failure} (h : loadLines stod content = .error failure) :
    ∃ before line after, (content.filter fun line => ¬Skipped line) = before ++ line :: after ∧
      (∀ earlier ∈ before, ∃ request, Gives stod earlier request) ∧
      ClientRequestColumns.ofCsvRequest stod line = .error failure := by
  induction content with
  | nil => cases h
  | cons line content ih =>
    by_cases hskipped : Skipped line
    · rw [loadLines_of_skipped hskipped] at h
      rw [List.filter_cons_of_neg (by simpa using hskipped)]
      exact ih h
    · rw [loadLines_cons hskipped] at h
      rw [List.filter_cons_of_pos (by simpa using hskipped)]
      cases hread : ClientRequestColumns.ofCsvRequest stod line with
      | error failure' =>
        simp only [hread] at h
        cases h
        exact ⟨[], line, _, rfl, nofun, hread⟩
      | ok request =>
        simp only [hread] at h
        cases hrest : loadLines stod content with
        | error failure' =>
          simp only [hrest] at h
          cases h
          obtain ⟨before, failing, after, hlines, hbefore, hfailing⟩ := ih hrest
          refine ⟨line :: before, failing, after, by rw [hlines, List.cons_append], ?_, hfailing⟩
          exact List.forall_mem_cons.mpr ⟨⟨request, gives_iff.mp hread⟩, hbefore⟩
        | ok rest =>
          simp only [hrest] at h
          cases h

/-- A test file is read if and only if every line that is no comment and not empty has the columns of a row with a price
and a quantity that can be read, and then the requests are those of its lines, in order. Otherwise, the exception is
about the first other line or one of its numbers: no line is read past its last column. -/
theorem loads_by_rows (stod : Text → Except Failure ℚ) (csvTestFile : String) (content : Text) :
    (∀ requests, loadRequests stod csvTestFile (some content) = .ok requests ↔
      List.Forall₂ (Gives stod) ((lines content).filter fun line => ¬Skipped line) requests) ∧
    ∀ failure, loadRequests stod csvTestFile (some content) = .error failure →
      ∃ before line after, ((lines content).filter fun line => ¬Skipped line) = before ++ line :: after ∧
        (∀ earlier ∈ before, ∃ request, Gives stod earlier request) ∧ (∀ request, ¬Gives stod line request) ∧
        ClientRequestColumns.ofCsvRequest stod line = .error failure ∧ Fails stod line failure := by
  refine ⟨fun requests => loadLines_eq_ok, fun failure hfailure => ?_⟩
  obtain ⟨before, line, after, hlines, hbefore, hline⟩ := exists_failing hfailure
  refine ⟨before, line, after, hlines, hbefore, fun request hgives => ?_, hline, fails_of_error hline⟩
  cases hline.symm.trans (gives_iff.mpr hgives)

end ClientApplication

namespace Row

/-- The line of a row. -/
def line (row : Row) : Text := List.intercalate [','] row.fields

/-- The row of a request, with its price as a text. -/
def ofColumns (showPrice : ℚ → Text) (request : ClientRequestColumns) : Row where
  symbol := request.symbol.toList
  side := request.side
  targetID := request.targetID.toList
  details :=
    match request.details with
    | .newOrder price quantity => .newOrder (showPrice price) (numeral quantity)
    | .cancelOrder origOrderID => .cancelOrder origOrderID.toList

/-- The texts of a row have no commas and line feeds, and none is empty. -/
def Writable (row : Row) : Prop := ∀ field ∈ row.fields, field ≠ [] ∧ ',' ∉ field ∧ '\n' ∉ field

instance : DecidablePred Writable := fun row => inferInstanceAs (Decidable (∀ field ∈ row.fields, _))

variable {row : Row} {stod : Text → Except Failure ℚ}

/-- The columns of the line of a row are its texts. -/
theorem tokens_line (h : row.Writable) : tokens ClientRequestColumns.seperator row.line = row.fields := by
  refine tokens_intercalate rfl fun field hfield => ?_
  obtain ⟨hne, hcomma, _⟩ := h field hfield
  exact ⟨hne, fun c hc => beq_eq_false_iff_ne.mpr fun heq => hcomma (heq ▸ hc)⟩

/-- The line of a row is one line. -/
theorem newline_not_mem_line (h : row.Writable) : '\n' ∉ row.line := by
  suffices hfields : ∀ texts : List Text, (∀ text ∈ texts, '\n' ∉ text) → '\n' ∉ List.intercalate [','] texts from
    hfields _ fun field hfield => (h field hfield).2.2
  intro texts htexts
  induction texts with
  | nil => exact List.not_mem_nil
  | cons text texts ih =>
    obtain ⟨htext, htexts⟩ := List.forall_mem_cons.mp htexts
    cases texts with
    | nil => simpa using htext
    | cons second texts =>
      have hrest := ih htexts
      simp only [List.intercalate_cons_cons, List.mem_append, List.mem_singleton, not_or]
      exact ⟨⟨htext, by decide⟩, hrest⟩

/-- The line of a row is no comment. -/
theorem not_skipped_line (row : Row) : ¬ConfigFile.Skipped row.line := by
  obtain ⟨symbol, side, targetID, details⟩ := row
  cases details with
  | newOrder price quantity => simp [line, fields, ConfigFile.Skipped]
  | cancelOrder origOrderID => simp [line, fields, ConfigFile.Skipped]

/-- A written row is read. -/
theorem ofCsvRequest_line (h : row.Writable) : ClientRequestColumns.ofCsvRequest stod row.line = row.columns stod := by
  obtain ⟨other, hother, hread⟩ | ⟨hnone, _⟩ := ClientRequestColumns.ofCsvRequest_cases stod row.line
  · obtain rfl := fields_injective ((tokens_line h).symm.trans hother)
    exact hread
  · exact absurd (tokens_line h) (hnone row)

/-- A request that can be written: its texts fit into columns, its price is a text that is read as this price, and its
quantity fits a `long`. -/
structure Printable (stod : Text → Except Failure ℚ) (showPrice : ℚ → Text) (request : ClientRequestColumns) : Prop where
  writable : (ofColumns showPrice request).Writable
  price : ∀ price quantity, request.details = .newOrder price quantity → stod (showPrice price) = .ok price
  quantity : ∀ price quantity, request.details = .newOrder price quantity → -2 ^ 63 ≤ quantity ∧ quantity < 2 ^ 63

/-- The row of a request gives the request. -/
theorem columns_ofColumns {showPrice : ℚ → Text} {request : ClientRequestColumns} (h : Printable stod showPrice request) :
    (ofColumns showPrice request).columns stod = .ok request := by
  obtain ⟨symbol, side, targetID, details⟩ := request
  cases details with
  | newOrder price quantity =>
    have hquantity : stol (numeral quantity) = .ok quantity := by
      simp only [stol, leadingInt_numeral]
      exact if_pos (h.quantity price quantity rfl)
    simp [columns, ofColumns, h.price price quantity rfl, hquantity, ClientRequestColumns.ok_bind]
  | cancelOrder origOrderID =>
    simp only [columns, ofColumns, String.ofList_toList]
    rfl

end Row

namespace ClientApplication

open ConfigFile (lines Skipped lines_append)

/-- A file with a line for every request. -/
def contentOf (showPrice : ℚ → Text) (requests : List ClientRequestColumns) : Text :=
  requests.flatMap fun request => (Row.ofColumns showPrice request).line ++ ['\n']

/-- Requests that are written to a test file are read back, and nothing else is. -/
theorem loadRequests_contentOf {stod : Text → Except Failure ℚ} {showPrice : ℚ → Text} (csvTestFile : String)
    {requests : List ClientRequestColumns} (h : ∀ request ∈ requests, Row.Printable stod showPrice request) :
    loadRequests stod csvTestFile (some (contentOf showPrice requests)) = .ok requests := by
  rw [loadRequests]
  induction requests with
  | nil => rfl
  | cons request requests ih =>
    obtain ⟨hrequest, hrequests⟩ := List.forall_mem_cons.mp h
    rw [contentOf, List.flatMap_cons, List.append_assoc, List.singleton_append,
      lines_append (Row.newline_not_mem_line hrequest.writable), loadLines_cons (Row.not_skipped_line _),
      Row.ofCsvRequest_line hrequest.writable, Row.columns_ofColumns hrequest]
    have hrest := ih hrequests
    rw [contentOf] at hrest
    rw [hrest]
    rfl

/-- Prices that are whole numbers, and a request of each type. -/
theorem loadRequests_contentOf_order_and_cancel :
    let stod (text : Text) : Except Failure ℚ := (stol text).map fun price => price
    let showPrice (price : ℚ) : Text := numeral price.num
    let requests : List ClientRequestColumns := [⟨"MSFT", .buy, "OME", .newOrder 10 5⟩, ⟨"MSFT", .buy, "OME", .cancelOrder "1"⟩]
    contentOf showPrice requests = "NEW_ORDER,MSFT,BUY,OME,10,5\nCANCEL_ORDER,MSFT,BUY,OME,1\n".toList ∧
      loadRequests stod "test_cases.txt" (some (contentOf showPrice requests)) = .ok requests := by
  refine ⟨by decide, loadRequests_contentOf _ fun request hrequest => ?_⟩
  obtain rfl | hrequest := List.mem_cons.mp hrequest
  · refine ⟨by decide, ?_, ?_⟩
    · rintro _ _ ⟨⟩
      rfl
    · rintro _ _ ⟨⟩
      decide
  · obtain rfl := List.mem_singleton.mp hrequest
    exact ⟨by decide, nofun, nofun⟩

end ClientApplication

end MatchingEngine
