import Mathlib.Data.Finset.Dedup
import Memorai.Schema.Records

/-! What a statement is about: its topic, its tokens and the obligation beside it. -/
namespace Memorai.Resolver
open Schema

def stopwords : List String :=
  ["a", "after", "all", "an", "and", "at", "be", "for", "from", "in", "of",
   "on", "pending", "primary", "review", "the", "that", "to", "will", "with"]

/-- `str.lower`, as far as the token pattern can see it: besides the ASCII capitals only the
Kelvin sign and the dotted capital I lower to something with an ASCII letter in it. -/
def lowerChar (c : Char) : List Char :=
  if 'A' ≤ c ∧ c ≤ 'Z' then [Char.ofNat (c.toNat + 32)]
  else if c.toNat = 0x212A then ['k']
  else if c.toNat = 0x130 then ['i', Char.ofNat 0x307]
  else [c]

def isTokenChar (c : Char) : Bool := ('a' ≤ c && c ≤ 'z') || ('0' ≤ c && c ≤ '9')

/-- `re.findall` of `[a-z0-9]+`: the maximal runs, `run` being the one under way, reversed. -/
def findTokens (run : List Char) : List Char → List (List Char)
  | [] => if run = [] then [] else [run.reverse]
  | c :: cs =>
    if isTokenChar c then findTokens (c :: run) cs
    else if run = [] then findTokens [] cs
    else run.reverse :: findTokens [] cs

def contentTokens (statement : String) : List String :=
  ((findTokens [] (statement.toList.flatMap lowerChar)).map String.ofList).filter (· ∉ stopwords)

/-- The part of a statement that identifies what it is about. -/
def topic (statement : String) : Finset String := ((contentTokens statement).take 3).toFinset

def tokens (statement : String) : Finset String := (contentTokens statement).toFinset

/-- The part of a commitment that is not in its statement text. -/
def obligation (claim : Claim) : Option String × Option String × Option Int :=
  match claim.commitment with
  | none => (none, none, none)
  | some c => (some c.owedByEntityId, c.owedToEntityId, c.dueAtMs)

end Memorai.Resolver
