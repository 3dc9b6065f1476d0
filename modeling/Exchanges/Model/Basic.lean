import Exchanges.Lib.OrdMap
import Exchanges.Lib.Program

/-!
The vocabulary every package of the platform shares: decimals, times, errors,
identifiers and command metadata.

Prices and quantities are `decimal.Decimal` values of a third-party package.
Addition, subtraction, multiplication and comparison are exact there, so a
decimal is a rational number here. Division rounds, and parsing and printing
have a format of their own; these three are the parameters of the class
`DecimalPackage`, and a result that needs to know more about them says so.

An instant is a number of nanoseconds after the zero value of `time.Time`.

Identifiers are strings, and the empty string means that there is none. Where
the source declares a string type with named constants, the model has an
inductive type with one constructor for each constant, `unset` for the empty
string and `other` for any text that is not one of the constants.
-/

namespace Exchanges.Model

open Exchanges.Lib Std

/-! ### Decimals and times -/

abbrev Decimal := ℚ

/-- What the decimal package does beyond exact arithmetic. -/
class DecimalPackage where
  /-- `Decimal.Div`. -/
  div : Decimal → Decimal → Decimal
  /-- `decimal.NewFromString`. -/
  parse : String → Option Decimal
  /-- `Decimal.String`. -/
  print : Decimal → String

/-- Division taken exactly. -/
class ExactDivision [DecimalPackage] : Prop where
  div_eq : ∀ x y : Decimal, DecimalPackage.div x y = x / y

/-- A quotient of amounts is an amount. -/
class AmountDivision [DecimalPackage] : Prop where
  div_nonneg : ∀ x y : Decimal, 0 ≤ x → 0 < y → 0 ≤ DecimalPackage.div x y

instance [DecimalPackage] [ExactDivision] : AmountDivision where
  div_nonneg x y hx hy := by
    rw [ExactDivision.div_eq]
    exact div_nonneg hx hy.le

/-- The number that a list of digits writes. -/
def digitsValue (digits : List Char) : Nat :=
  digits.foldl (fun n d => 10 * n + (d.toNat - '0'.toNat)) 0

/-- A decimal without an exponent. -/
def parseDecimal (text : String) : Option Decimal :=
  let unsigned := match text.toList with
    | '-' :: cs => cs
    | '+' :: cs => cs
    | cs => cs
  let whole := unsigned.takeWhile (· ≠ '.')
  let fraction := (unsigned.dropWhile (· ≠ '.')).drop 1
  if whole ++ fraction = [] ∨ ¬ (whole ++ fraction).all Char.isDigit then none
  else
    let value : Decimal := digitsValue (whole ++ fraction) / 10 ^ fraction.length
    some (if text.toList.head? = some '-' then -value else value)

/-- A decimal with as many places as it needs, and at most 32. -/
def printDecimal (x : Decimal) : String :=
  let places := ((List.range 33).find? fun k => 10 ^ k % x.den == 0).getD 32
  let scaled := x.num.natAbs * 10 ^ places / x.den
  let fraction := toString (scaled % 10 ^ places)
  let padded := String.ofList (List.replicate (places - fraction.length) '0') ++ fraction
  (if x < 0 then "-" else "") ++ toString (scaled / 10 ^ places) ++
    (if places = 0 then "" else "." ++ padded)

/-- The decimal package on values whose quotients need no rounding. -/
abbrev exactDecimals : DecimalPackage := ⟨fun x y => x / y, parseDecimal, printDecimal⟩

theorem exactDivision_exactDecimals : @ExactDivision exactDecimals :=
  @ExactDivision.mk exactDecimals fun _ _ => rfl

theorem amountDivision_exactDecimals : @AmountDivision exactDecimals :=
  @instAmountDivisionOfExactDivision exactDecimals exactDivision_exactDecimals

/-- Nanoseconds after the zero value of `time.Time`. -/
abbrev Time := ℤ

/-- `time.Unix(0, 0)`. -/
def unixEpoch : Time := 62135596800000000000

/-! ### Errors -/

/-- The sentinel an error wraps. -/
inductive Sentinel where
  | invalidInstrumentID
  | invalidInstrument
  | instrumentNotFound
  | invalidMarketData
  | invalidOrder
  | invalidAccount
  | invalidExecutionEvent
  | notSupported
  | invalidTransition
  | overfill
  | clientNotFound
  | algorithmNotFound
  | algorithmIDMissing
  | riskRejected
  | riskQueueFull
  | invalidTimer
  | invalidIndicator
  /-- An error that wraps no sentinel. -/
  | plain
  deriving DecidableEq, Repr

/-- An error: the sentinel it wraps, the text after it, and the values that
the format string quotes. -/
structure Err where
  sentinel : Sentinel
  detail : String := ""
  args : List String := []
  deriving DecidableEq, Repr

def invalidOrder (detail : String) : Err := ⟨.invalidOrder, detail, []⟩

def invalidAccount (detail : String) : Err := ⟨.invalidAccount, detail, []⟩

def invalidMarketData (detail : String) : Err := ⟨.invalidMarketData, detail, []⟩

def invalidInstrument (detail : String) : Err := ⟨.invalidInstrument, detail, []⟩

/-! ### Identifiers -/

abbrev Venue := String
abbrev Currency := String
abbrev AccountID := String
abbrev ClientOrderID := String
abbrev OrderListID := String
abbrev OrderID := String
abbrev VenueOrderID := String
abbrev TradeID := String
abbrev PositionID := String
abbrev VenuePositionID := String
abbrev ExecAlgorithmID := String
abbrev ExecSpawnID := String
abbrev ComponentID := String
abbrev TraderID := String
abbrev StrategyID := String
abbrev CommandID := String
abbrev CorrelationID := String
abbrev ExecutionClientID := String

instance : TransOrd ((AccountID × OrderID) × TradeID) := inferInstance

/-- `unicode.IsSpace`. -/
def isSpace (c : Char) : Bool :=
  let n := c.toNat
  (9 ≤ n && n ≤ 13) || n == 32 || n == 0x85 || n == 0xA0 || n == 0x1680 ||
    (0x2000 ≤ n && n ≤ 0x200a) || n == 0x2028 || n == 0x2029 || n == 0x202f ||
    n == 0x205f || n == 0x3000

/-- `strings.TrimSpace(s) == ""`. -/
def blank (s : String) : Bool := s.toList.all isSpace

structure InstrumentID where
  symbol : String := ""
  venue : Venue := ""
  deriving DecidableEq, Repr, Inhabited

namespace InstrumentID

instance : Ord InstrumentID := ⟨compareOn fun id => (id.symbol, id.venue)⟩

instance : TransOrd InstrumentID :=
  inferInstanceAs (TransCmp (compareOn fun id : InstrumentID => (id.symbol, id.venue)))

instance : LawfulEqOrd InstrumentID :=
  lawfulEqCmp_compareOn fun a b h => by
    cases a; cases b
    simp_all

/-- `InstrumentID.String`. -/
def string (id : InstrumentID) : String :=
  if id.symbol = "" ∧ id.venue = "" then "" else id.symbol ++ "." ++ id.venue

def validate (id : InstrumentID) : Except Err Unit := do
  reject (blank id.symbol ∨ blank id.venue) ⟨.invalidInstrumentID, "", [id.string]⟩
  reject ('.' ∈ id.symbol.toList) ⟨.invalidInstrumentID, "", [id.string]⟩

/-- What stands before the first dot is determined by the text. -/
theorem append_dot_inj {xs ys us vs : List Char} (hx : '.' ∉ xs) (hy : '.' ∉ ys)
    (h : xs ++ '.' :: us = ys ++ '.' :: vs) : xs = ys ∧ us = vs := by
  rcases List.append_eq_append_iff.mp h with ⟨ws, rfl, hws⟩ | ⟨ws, rfl, hws⟩
  · cases ws with
    | nil => simpa using hws
    | cons w ws =>
      obtain ⟨rfl, -⟩ := List.cons.inj hws
      exact absurd (by simp) hy
  · cases ws with
    | nil => simpa using hws.symm
    | cons w ws =>
      obtain ⟨rfl, -⟩ := List.cons.inj hws
      exact absurd (by simp) hx

/-- The symbol of a valid id has no dot, so the text determines the id. -/
theorem string_injective {x y : InstrumentID} (hx : x.validate = .ok ())
    (hy : y.validate = .ok ()) (h : x.string = y.string) : x = y := by
  simp only [validate, except_seq_eq_ok, reject_eq_ok, not_or] at hx hy
  have hne : ∀ id : InstrumentID, ¬ blank id.symbol = true →
      ¬ (id.symbol = "" ∧ id.venue = "") := by
    rintro id hblank ⟨hempty, -⟩
    rw [hempty] at hblank
    exact hblank rfl
  rw [string, string, if_neg (hne x hx.1.1), if_neg (hne y hy.1.1)] at h
  have hlists := congrArg String.toList h
  simp only [String.toList_append, List.append_assoc] at hlists
  obtain ⟨hsymbol, hvenue⟩ := append_dot_inj hx.2 hy.2 hlists
  cases x
  cases y
  rw [InstrumentID.mk.injEq]
  exact ⟨String.toList_inj.mp hsymbol, String.toList_inj.mp hvenue⟩

theorem string_ne_empty {x : InstrumentID} (hx : x.validate = .ok ()) : x.string ≠ "" := by
  simp only [validate, except_seq_eq_ok, reject_eq_ok, not_or] at hx
  intro h
  rw [string] at h
  split at h
  · next hempty =>
      rw [hempty.1] at hx
      exact hx.1.1 rfl
  · have hlists := congrArg String.toList h
    simp at hlists

end InstrumentID

/-! ### Command metadata -/

structure CommandMetadata where
  traderID : TraderID := ""
  strategyID : StrategyID := ""
  commandID : CommandID := ""
  correlationID : CorrelationID := ""
  clientID : ExecutionClientID := ""
  componentID : ComponentID := ""
  execAlgorithmID : ExecAlgorithmID := ""
  execSpawnID : ExecSpawnID := ""
  tsInit : Time := 0
  params : List (String × String) := []
  deriving DecidableEq, Repr, Inhabited

/-- The first value unless it is empty. -/
def orDefault (value default : String) : String := if value = "" then default else value

def CommandMetadata.withDefaults (m defaults : CommandMetadata) : CommandMetadata where
  traderID := orDefault m.traderID defaults.traderID
  strategyID := orDefault m.strategyID defaults.strategyID
  commandID := orDefault m.commandID defaults.commandID
  correlationID := orDefault m.correlationID defaults.correlationID
  clientID := orDefault m.clientID defaults.clientID
  componentID := orDefault m.componentID defaults.componentID
  execAlgorithmID := orDefault m.execAlgorithmID defaults.execAlgorithmID
  execSpawnID := orDefault m.execSpawnID defaults.execSpawnID
  tsInit := if m.tsInit = 0 then defaults.tsInit else m.tsInit
  params := if m.params = [] then defaults.params else m.params

end Exchanges.Model
