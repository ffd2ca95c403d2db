import Mathlib.Algebra.Group.Nat.Defs
import Mathlib.Data.List.Basic
import Mathlib.Tactic.Lemma

/-!
# `simple_ricardian_tokenizer`

The scanner of the Ricardian files. It reads `source` at any index up to the size, where a NUL
stands, and it shares `index` between its functions, which take it and return it here. Positions are
also held in an `int`.
-/

namespace UosioCdt.Tools.Ricardian

/-- Why a call does not return. -/
inductive Fault where
  /-- A read behind the NUL at the end of `source`. -/
  | outside
  /-- An `int` that is too large. -/
  | overflow
  /-- The model does not go on. -/
  | fuel
deriving DecidableEq

/-- The four characters that the source compares with. -/
def isWs (c : Char) : Bool := c = ' ' || c = '\n' || c = '\r' || c = '\t'

def toInt (i : ℕ) : Except Fault ℕ := if i < 2 ^ 31 then .ok i else .error .overflow

/-- `source[i]` -/
def charAt (source : List Char) (i : ℕ) : Except Fault Char :=
  if i ≤ source.length then .ok (source[i]?.getD '\x00') else .error .outside

/-- `source.substr(pos, n)` -/
def substr (source : List Char) (pos n : ℕ) : List Char := (source.drop pos).take n

/-! ## Tokens -/

/-- The loop of `eat_ws` at `i`; `text` is what is left there. -/
def skipWs : (text : List Char) → (i : ℕ) → Except Fault ℕ
  | [], i => .ok i
  | c :: text, i => if isWs c then do skipWs text (← toInt (i + 1)) else .ok i

/-- `eat_ws(i)`, a distance from `index` -/
def eatWs (source : List Char) (index i : ℕ) : Except Fault ℕ := do
  if !isWs (← charAt source i) then return 0
  else return (← skipWs (source.drop i) i) - index

/-- The loop of `check`, with what is left of `sub`: the index behind it, or `none`. -/
def checkLoop (source : List Char) (index : ℕ) : (sub : List Char) → (i : ℕ) →
    Except Fault (Option ℕ)
  | [], i => .ok (some i)
  | c :: sub, i => do
    let i ← toInt (i + (← eatWs source index i))
    if c ≠ (← charAt source i) then return none
    else checkLoop source index sub (← toInt (i + 1))

/-- `check(sub)` -/
def check (source sub : List Char) (index : ℕ) : Except Fault (Bool × ℕ) := do
  match ← checkLoop source index sub (← toInt index) with
  | none => return (false, index)
  | some i => return (true, i + (← eatWs source i i))

/-- `check` of one token after the other, joined by `&&` -/
def checkAll (source : List Char) : List (List Char) → (index : ℕ) → Except Fault (Bool × ℕ)
  | [], index => .ok (true, index)
  | sub :: subs, index => do
    let (found, index) ← check source sub index
    if found then checkAll source subs index else return (false, index)

/-- The tokens of a header. -/
def headTokens (type : List Char) : List (List Char) :=
  [['<'], ['h', '1'], ['c', 'l', 'a', 's', 's'], ['='], '"' :: type ++ ['"'], ['>']]

/-- The tokens behind the name. -/
def closeTokens : List (List Char) := [['<'], ['/', 'h', '1'], ['>']]

/-- `is_decl(type)` -/
def isDecl (source type : List Char) (index : ℕ) : Except Fault (Bool × ℕ) :=
  checkAll source (headTokens type) index

/-! ## Declarations and bodies -/

/-- Trailing whitespace is counted, and any other character starts again. -/
def countWs (c : Char) (ws : ℕ) : ℕ := if isWs c then ws + 1 else 0

/-- The loop of `get_decl` up to the next tag. -/
def nameLoop : (text : List Char) → (after ws : ℕ) → Except Fault (ℕ × ℕ)
  | [], after, ws => .ok (after, ws)
  | c :: text, after, ws =>
    if c = '<' then .ok (after, ws)
    else do nameLoop text (← toInt (after + 1)) (countWs c ws)

/-- `get_decl(type)`: a vector with the name, or an empty one -/
def getDecl (source type : List Char) (index : ℕ) : Except Fault (Option (List Char) × ℕ) := do
  let (found, index) ← isDecl source type index
  if found then
    let before ← toInt index
    let (after, ws) ← nameLoop (source.drop before) before 0
    let (closed, index) ← checkAll source closeTokens after
    if closed then return (some (substr source before (after - before - ws)), index)
    else return (none, index)
  else return (none, index)

/-- The loop of `get_body`, which tries the next header at each index. -/
def bodyLoop (source type : List Char) : (text : List Char) → (i ws : ℕ) → Except Fault (ℕ × ℕ)
  | [], i, ws => .ok (i, ws)
  | c :: text, i, ws => do
    let (found, _) ← isDecl source type i
    if found then return (i, ws)
    else bodyLoop source type text (← toInt (i + 1)) (countWs c ws)

/-- `get_body(type)` -/
def getBody (source type : List Char) (index : ℕ) : Except Fault (List Char × ℕ) := do
  let before ← toInt index
  let (i, ws) ← bodyLoop source type (source.drop before) before 0
  return (substr source before (i - before - ws), i)

/-- The loop of `parse`. -/
def parseLoop (source type : List Char) : (fuel : ℕ) → (index : ℕ) →
    List (List Char × List Char) → Except Fault (List (List Char × List Char))
  | 0, _, _ => .error .fuel
  | fuel + 1, index, ret =>
    if index < source.length then do
      let (decl, index) ← getDecl source type index
      match decl with
      | some name =>
        let (body, index) ← getBody source type index
        parseLoop source type fuel index (ret ++ [(name, body)])
      | none => return []
    else .ok ret

/-- `parse(type)`. Each round moves the index, so there is fuel for all of them. -/
def parse (source type : List Char) : Except Fault (List (List Char × List Char)) :=
  parseLoop source type (source.length + 1) 0 []

end UosioCdt.Tools.Ricardian
