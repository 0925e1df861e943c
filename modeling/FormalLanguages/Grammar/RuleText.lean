import FormalLanguages.Grammar.Basic

/-!
Rules as texts. A rule is read from `head→body` or `head->body`, where the body is `λ` or a
sequence of declared symbols; every rule and the whole grammar are written in the same manner.
-/

namespace FormalLanguages.Grammar

/-- The declared symbol that a lexeme refers to. A bare character is looked up among the terminals
first; a wrapped name is never a terminal. -/
def classify (g : Grammar) : Lexeme → Option Symbol
  | .wrapped name => if name ∈ g.nonTerminals then some (.nonTerminal name) else none
  | .bare c =>
    if c ∈ g.terminals then some (.terminal c)
    else if String.singleton c ∈ g.nonTerminals then some (.nonTerminal (String.singleton c))
    else none

/-- The body that a sequence of lexemes spells; `λ` stands alone. -/
def bodyOfLexemes (g : Grammar) (lexemes : List Lexeme) : Option Body :=
  if lexemes.any Lexeme.isLambda then
    if lexemes.length = 1 then some [] else none
  else if lexemes.isEmpty then none
  else lexemes.mapM g.classify

def parseBody (g : Grammar) (text : String) : Except Error Body :=
  match Lexeme.tokenize text with
  | .error fault => .error (.malformedLexeme fault)
  | .ok lexemes =>
    match g.bodyOfLexemes lexemes with
    | some body => .ok body
    | none => .error (.malformedRule text)

/-- Head and body of a rule text, cut at its first arrow and trimmed. The ASCII arrow counts only
where no other arrow occurs, and the body holds no further arrow. -/
def splitRule (text : String) : Option (String × String) := do
  let (head, body) ← (Text.cut? [arrow] text.toList).or (Text.cut? asciiArrow text.toList)
  if arrow ∈ body then none
  else some (String.ofList (Text.trim head), String.ofList (Text.trim body))

/-- The rule that a text states over the declared symbols. -/
def parseRule (g : Grammar) (text : String) : Except Error Rule :=
  match splitRule text with
  | none => .error (.malformedRule text)
  | some (head, body) =>
    if head ∈ g.nonTerminals then
      match g.parseBody body with
      | .ok body => .ok ⟨head, body⟩
      | .error (.malformedRule _) => .error (.malformedRule text)
      | .error error => .error error
    else .error (.malformedRule text)

def addRule (text : String) (g : Grammar) : Except Error Grammar := do
  let rule ← g.parseRule text
  return { g with rules := g.rules.insert rule }

def removeRule (rule : Rule) (g : Grammar) : Grammar :=
  { g with rules := g.rules.erase rule }

/-- One line per rule, in the order of the table. -/
def ruleLines (g : Grammar) : List String :=
  g.rules.toList.map Rule.text

/-- The terminals between braces. -/
def terminalsText (g : Grammar) : String :=
  "\x7b" ++ ", ".intercalate (g.terminals.toList.map String.singleton) ++ "\x7d"

/-- The non-terminals between braces. -/
def nonTerminalsText (g : Grammar) : String :=
  "\x7b" ++ "; ".intercalate g.nonTerminals.toList ++ "\x7d"

/-- A head with all its bodies. -/
def rowText (row : String × List Body) : String :=
  row.1 ++ String.singleton arrow ++
    (String.singleton alternativeBar).intercalate (row.2.map Body.text)

/-- The grammar on four lines: terminals, non-terminals, goal and rules. -/
def text (g : Grammar) : String :=
  "Terminals: " ++ g.terminalsText ++
    "\nNon-terminals: " ++ g.nonTerminalsText ++
    "\nGoal symbol: " ++ g.goal.getD "-" ++
    "\nRules: [" ++ ", ".intercalate (g.rules.rows.map rowText) ++ "]"

/-! ### What the alphabets decide -/

section

variable {g g' : Grammar} (hterminals : g'.terminals = g.terminals)
  (hnames : g'.nonTerminals = g.nonTerminals)

include hterminals hnames

theorem classify_eq_of_alphabets : g'.classify = g.classify := by
  funext lexeme
  cases lexeme <;> simp only [classify, hterminals, hnames]

theorem parseBody_eq_of_alphabets : g'.parseBody = g.parseBody := by
  funext text
  simp only [parseBody, bodyOfLexemes, classify_eq_of_alphabets hterminals hnames]

theorem parseRule_eq_of_alphabets : g'.parseRule = g.parseRule := by
  funext text
  simp only [parseRule, parseBody_eq_of_alphabets hterminals hnames, hnames]

end

end FormalLanguages.Grammar
