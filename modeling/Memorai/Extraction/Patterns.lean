import Memorai.Extraction.Mock
import Memorai.Text.Dates
import Memorai.Text.Regex

/-! The patterns of the rule-based extractor, and what they find in a text. -/
namespace Memorai.Extraction.Mock
open Text Regex

/-- `[A-Z]` -/
def isUpper (c : Char) : Bool := c.isUpper

/-- `[a-z]` -/
def isLower (c : Char) : Bool := c.isLower

/-- `[A-Za-z0-9_-]` -/
def isIdChar (c : Char) : Bool := isUpper c || isLower c || c.isDigit || c = '_' || c = '-'

/-- `[A-Za-z0-9_+.-]` -/
def isArtifactChar (c : Char) : Bool := isIdChar c || c = '+' || c = '.'

def isDigit (c : Char) : Bool := (digit? c).isSome

/-- `[^.]` -/
def notDot (c : Char) : Bool := c ≠ '.'

/-- `[A-Z][a-z]+` -/
def name : Regex := concat [one isUpper, one isLower, many isLower]

/-- `\d{4}-\d{2}-\d{2}` -/
def date : Regex :=
  concat [one isDigit, one isDigit, one isDigit, one isDigit, word ['-'], one isDigit, one isDigit, word ['-'], one isDigit, one isDigit]

def verbs : List String := ["decided", "agreed", "noted", "recorded"]

/-- `decided|agreed|noted|recorded` -/
def verb : Regex :=
  either (word "decided".toList) (either (word "agreed".toList) (either (word "noted".toList) (word "recorded".toList)))

def projectRe : Regex := concat [word "project ".toList, group 1 (concat [one isUpper, many isIdChar])]

def artifactRe : Regex := concat [word "use ".toList, group 1 (concat [one isUpper, many isArtifactChar])]

/-- `project [A-Za-z0-9_-]+ will `, and what it will by `said`. -/
def intent (said : Regex) : Regex :=
  concat [word "project ".toList, one isIdChar, many isIdChar, word " will ".toList, one notDot, said]

def claimRe : Regex := concat [group 1 name, word [' '], verb, word " that ".toList, group 2 (intent (many notDot))]

def commitmentRe : Regex :=
  concat [group 1 name, word " committed".toList, optional (concat [word " to ".toList, group 2 name]), word " that ".toList,
    group 3 (intent (few notDot)), optional (concat [word " by ".toList, group 4 date]), word ['.']]

section Find

def groupText (o : Outcome) (n : Nat) : String := String.ofList ((o.group? n).getD [])

def claimMatch (o : Outcome) : ClaimMatch where
  whole := String.ofList o.taken
  person := groupText o 1
  statement := groupText o 2

def commitmentMatch (o : Outcome) : CommitmentMatch where
  whole := String.ofList o.taken
  owedBy := groupText o 1
  owedTo := (o.group? 2).map String.ofList
  obligation := groupText o 3
  due := (o.group? 4).map String.ofList

/-- What `finditer` gives for each pattern. `wordChar` is what `\w` matches. -/
def find (wordChar : Char → Bool) (text : String) : Matches where
  claims := (findAll anywhere claimRe text.toList).map claimMatch
  commitments := (findAll anywhere commitmentRe text.toList).map commitmentMatch
  projects := (findAll (boundary wordChar) projectRe text.toList).map (groupText · 1)
  artifacts := (findAll (boundary wordChar) artifactRe text.toList).map (groupText · 1)

end Find

end Memorai.Extraction.Mock
