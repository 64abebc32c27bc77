import ImportClosure.Parsing.Tables
import ImportClosure.Python.Phrase
import ImportClosure.Python.Token

/-!
# Grammar of sources

The rule of each phrase. The grammar is generous: it takes what one version of the language or another takes, and it
asks of the targets of an assignment only that they have the form of one.
-/

namespace ImportClosure.Python

open Parsing (Description Rule Side NumberSet)
open Parsing.Rule (row oneOf optional many separated repeated bound weighted shown)
open Phrase

instance : Coe Token Rule := ⟨fun t => .symbol (.token t.number)⟩

instance : Coe Phrase Rule := ⟨fun p => .symbol (.phrase p.number)⟩

instance : Coe String Rule := ⟨fun text => (Token.literal text : Rule)⟩

namespace Grammar

/-- One or more of a rule between commas. -/
def listed (rule : Rule) : Rule := separated rule ","

/-- One or more of a rule between commas; one more comma may follow. -/
def listedOpen (rule : Rule) : Rule := row [listed rule, optional ","]

/-- A rule in parentheses, brackets or braces. -/
def within (opening closing : String) (rule : Rule) : Rule := row [opening, rule, closing]

/-- Names that are literal words elsewhere. -/
def softName : Rule :=
  .alt (bound (-3) none (oneOf ["print", "exec", "async", "await"])) (oneOf ["type", "match"])

def anyName : Rule := oneOf [Token.name, softName]

def simpleStatement : Rule :=
  oneOf [futureImport, importStatement, fromImport, printStatement, assertStatement, expressionStatement,
    returnStatement, deleteStatement, raiseStatement, passStatement, breakStatement, continueStatement,
    globalStatement, nonlocalStatement, execStatement, typeAlias]

def compoundStatement : Rule :=
  oneOf [ifStatement, forStatement, whileStatement, tryStatement, withStatement, functionDefinition, classDefinition,
    decoratedDefinition, matchStatement]

/-- What stands behind the colon of a compound statement. -/
def suite : Rule := oneOf [shown simpleLine, row [Token.indent, block], shown Token.newline]

def values : Rule := oneOf [expression, expressionList]

def assigned : Rule := oneOf [target, targets]

/-- Two or more of a rule between commas, or one with a comma behind it. -/
def several (rule : Rule) : Rule := row [rule, oneOf [",", row [repeated (row [",", rule]), optional ","]]]

def numeral : Rule := oneOf [Token.integer, Token.float]

/-- Two operands with an operator between them. -/
def operator (part : Phrase) (level : Int) (side : Side) (sign : String) : Rule :=
  bound level (some side) (row [part, sign, part])

end Grammar

open Grammar

/-- The rule of a phrase. -/
def Phrase.rule : Phrase → Rule
  | source => many statement
  | statement => oneOf [simpleLine, compoundStatement]
  | simpleLine => row [separated simpleStatement ";", optional ";", Token.newline]
  -- imports
  | importStatement => row ["import", importedNames]
  | leadingDots => repeated "."
  | relativeName => row [leadingDots, optional dottedName]
  | futureImport =>
    row ["from", "__future__", "import", oneOf [importedNames, within "(" ")" importedNames]]
  | fromImport =>
    row ["from", oneOf [relativeName, dottedName], "import",
      oneOf [everything, importedNames, within "(" ")" importedNames]]
  | importedNames => listedOpen (oneOf [dottedName, renamedName])
  | renamedName => row [dottedName, "as", Token.name]
  | everything => "*"
  -- simple statements
  | printStatement =>
    .alt (bound 1 none (row ["print", redirection, many (row [",", expression]), optional ","]))
      (bound (-3) none (weighted (-1) (row ["print", listed expression, optional ","])))
  | redirection => row [">>", expression]
  | assertStatement => row ["assert", listed expression]
  | expressionStatement =>
    oneOf [expression, listedOpen expression, assignment, augmentedAssignment, yielding]
  | namedExpression => row [assignedName, ":=", expression]
  | assignedName => anyName
  | returnStatement => row ["return", optional values]
  | deleteStatement => row ["del", values]
  | raiseStatement => row ["raise", optional values, optional (row ["from", expression])]
  | passStatement => bound 0 (some .left) "pass"
  | breakStatement => bound 0 (some .left) "break"
  | continueStatement => bound 0 (some .left) "continue"
  | globalStatement => row ["global", listed Token.name]
  | nonlocalStatement => row ["nonlocal", listed Token.name]
  | execStatement =>
    row ["exec", oneOf [stringLiteral, Token.name], optional (row ["in", listed expression])]
  | typeAlias => weighted 1 (row ["type", typeExpression, "=", typeExpression])
  -- compound statements
  | ifStatement => row ["if", expression, ":", suite, many elifClause, optional elseClause]
  | elifClause => row ["elif", expression, ":", suite]
  | elseClause => row ["else", ":", suite]
  | matchStatement => row ["match", listed expression, optional ",", ":", matchBlock]
  | matchBlock => oneOf [row [Token.indent, many caseClause, Token.dedent], Token.newline]
  | caseClause => row ["case", listed casePattern, optional ",", optional ifClause, ":", suite]
  | forStatement =>
    row [optional "async", "for", assigned, "in", values, ":", suite, optional elseClause]
  | whileStatement => row ["while", expression, ":", suite, optional elseClause]
  | tryStatement =>
    row ["try", ":", suite, oneOf [
      row [repeated exceptClause, optional elseClause, optional finallyClause],
      row [repeated exceptGroupClause, optional elseClause, optional finallyClause], finallyClause]]
  | exceptClause =>
    row ["except", optional (row [expression, optional (row [oneOf ["as", ","], expression])]), ":", suite]
  | exceptGroupClause => row ["except*", row [expression, optional (row ["as", expression])], ":", suite]
  | finallyClause => row ["finally", ":", suite]
  | withStatement => row [optional "async", "with", withClause, ":", suite]
  | withClause =>
    oneOf [listedOpen withItem, row ["(", listed withItem, optional ",", ")"]]
  | withItem => weighted 1 expression
  -- definitions
  | functionDefinition =>
    row [optional "async", "def", Token.name, optional typeParameters, parameters,
      optional (row ["->", typeExpression]), ":", suite]
  | parameters => within "(" ")" (optional parameterList)
  | lambdaParameters => parameterList
  | parameterList => listedOpen parameter
  | parameter =>
    oneOf [Token.name, typedParameter, defaultParameter, typedDefaultParameter, spreadTarget, tupleTarget, keywordMark,
      positionalMark, dictionarySpreadTarget]
  | defaultParameter => row [oneOf [Token.name, tupleTarget], "=", expression]
  | typedDefaultParameter => bound (-1) none (row [Token.name, ":", typeExpression, "=", expression])
  | typedParameter =>
    bound (-1) none (row [oneOf [Token.name, spreadTarget, dictionarySpreadTarget], ":", typeExpression])
  | positionalMark => "/"
  | keywordMark => "*"
  | classDefinition =>
    row ["class", Token.name, optional typeParameters, optional arguments, ":", suite]
  | decoratedDefinition => row [repeated decorator, oneOf [classDefinition, functionDefinition]]
  | decorator => row ["@", expression, Token.newline]
  | block => row [many statement, Token.dedent]
  -- case patterns
  | casePattern => bound 1 none (oneOf [capturePattern, keywordPattern, simplePattern])
  | simplePattern =>
    bound 1 none (oneOf [classPattern, restPattern, choicePattern, sequencePattern, groupPattern, mappingPattern,
      stringLiteral, strings, "True", "False", "None", row [optional "-", numeral], complexPattern, dottedName,
      "_"])
  | capturePattern => row [casePattern, "as", Token.name]
  | choicePattern =>
    bound 0 (some .right) (row [simplePattern, repeated (bound 0 (some .left) (row ["|", simplePattern]))])
  | sequencePattern => within "[" "]" (optional (listedOpen casePattern))
  | groupPattern => within "(" ")" (optional (listedOpen casePattern))
  | mappingPattern => within "\x7b" "\x7d" (optional (listedOpen (oneOf [mappingEntry, restPattern])))
  | mappingEntry => row [simplePattern, ":", casePattern]
  | keywordPattern => row [Token.name, "=", simplePattern]
  | restPattern => bound 1 none (row [oneOf ["*", "**"], oneOf [Token.name, "_"]])
  | classPattern => row [dottedName, "(", optional (listedOpen casePattern), ")"]
  | complexPattern => bound 1 none (row [optional "-", numeral, oneOf ["+", "-"], numeral])
  -- targets
  | targetList => listedOpen target
  | target => oneOf [anyName, subscript, member, spreadTarget, tupleTarget, listTarget]
  | targets => several target
  | tupleTarget => within "(" ")" (optional targetList)
  | listTarget => within "[" "]" (optional targetList)
  | spreadTarget => row ["*", oneOf [anyName, subscript, member]]
  | dictionarySpreadTarget => row ["**", oneOf [anyName, subscript, member]]
  | assignment =>
    row [assigned, oneOf [row ["=", assignedValue], row [":", typeExpression],
      row [":", typeExpression, "=", assignedValue]]]
  | augmentedAssignment =>
    row [assigned, oneOf ["+=", "-=", "*=", "/=", "@=", "//=", "%=", "**=", ">>=", "<<=", "&=", "^=", "|="],
      assignedValue]
  | assignedValue => oneOf [expression, expressionList, assignment, augmentedAssignment, targets, yielding]
  -- expressions
  | expression =>
    oneOf [comparison, negation, conjunction, lambda, operand, conditional, namedExpression, capture]
  | expressionList => bound 0 (some .right) (several expression)
  | capture => bound 0 (some .left) (row [expression, "as", shown expression])
  | conditional => bound (-1) (some .right) (row [expression, "if", expression, "else", expression])
  | lambda => bound (-2) none (row ["lambda", optional lambdaParameters, ":", expression])
  | elementLambda => row ["lambda", optional lambdaParameters, ":", elementSource]
  | elementSource => oneOf [expression, elementLambda]
  | negation => bound 12 none (row ["not", expression])
  | conjunction => oneOf [operator expression 11 .left "and", operator expression 10 .left "or"]
  | comparison =>
    bound 13 (some .left) (row [operand, repeated (row [
      oneOf ["<", "<=", "==", "!=", ">=", ">", "<>", "in", notIn, "is", isNot], operand])])
  | notIn => row ["not", "in"]
  | isNot => row ["is", "not"]
  | operation =>
    oneOf [operator operand 18 .left "+", operator operand 18 .left "-", operator operand 19 .left "*",
      operator operand 19 .left "@", operator operand 19 .left "/", operator operand 19 .left "%",
      operator operand 19 .left "//", operator operand 21 .right "**", operator operand 14 .left "|",
      operator operand 15 .left "&", operator operand 16 .left "^", operator operand 17 .left "<<",
      operator operand 17 .left ">>"]
  | signed => bound 20 none (row [oneOf ["+", "-", "~"], operand])
  | awaiting => bound 20 none (row ["await", operand])
  | operand =>
    oneOf [awaiting, operation, anyName, stringLiteral, strings, Token.integer, Token.float, "True", "False", "None",
      signed, member, subscript, call, listDisplay, listComprehension, dictionaryDisplay, dictionaryComprehension,
      setDisplay, setComprehension, tupleDisplay, parenthesized, generator, "...", spreadTarget]
  | member => bound 22 none (row [operand, ".", Token.name])
  | subscript =>
    bound 22 none (row [operand, "[", listed (oneOf [expression, slice]), optional ",", "]"])
  | slice =>
    row [optional expression, ":", optional expression, optional (row [":", optional expression])]
  | call => bound 22 none (row [operand, oneOf [generator, arguments]])
  | arguments =>
    row ["(", optional (listed (oneOf [expression, spread, dictionarySpread, groupedSpread, keywordArgument])),
      optional ",", ")"]
  | keywordArgument => row [anyName, "=", expression]
  | spread => row ["*", expression]
  | dictionarySpread => row ["**", expression]
  | groupedSpread => bound 1 none (within "(" ")" (oneOf [groupedSpread, spread]))
  | yielding => bound 0 (some .right) (row ["yield", oneOf [row ["from", expression], optional values]])
  | dottedName => bound 1 none (separated Token.name ".")
  -- types
  | typeExpression =>
    oneOf [bound 1 none expression, spreadType, genericType, unionType, constrainedType, memberType]
  | spreadType => bound 1 none (row [oneOf ["*", "**"], Token.name])
  | genericType => bound 1 none (row [oneOf [Token.name, "type"], typeParameters])
  | unionType => bound 0 (some .left) (row [typeExpression, "|", typeExpression])
  | constrainedType => bound 0 (some .right) (row [typeExpression, ":", typeExpression])
  | memberType => row [typeExpression, ".", Token.name]
  | typeParameters => row ["[", listed typeExpression, optional ",", "]"]
  -- collections
  | elements => listedOpen (oneOf [expression, yielding, spread, groupedSpread])
  | listDisplay => within "[" "]" (optional elements)
  | setDisplay => within "\x7b" "\x7d" elements
  | tupleDisplay => within "(" ")" (optional elements)
  | dictionaryDisplay =>
    row ["\x7b", optional (listed (oneOf [pair, dictionarySpread])), optional ",", "\x7d"]
  | pair => row [expression, ":", expression]
  | parenthesized => bound 1 none (within "(" ")" (oneOf [expression, yielding]))
  | listComprehension => row ["[", expression, comprehensionClauses, "]"]
  | dictionaryComprehension => row ["\x7b", pair, comprehensionClauses, "\x7d"]
  | setComprehension => row ["\x7b", expression, comprehensionClauses, "\x7d"]
  | generator => row ["(", expression, comprehensionClauses, ")"]
  | comprehensionClauses => row [forInClause, many (oneOf [forInClause, ifClause])]
  | forInClause =>
    bound 0 (some .left) (row [optional "async", "for", assigned, "in", listed elementSource, optional ","])
  | ifClause => row ["if", expression]
  -- strings
  | strings => bound 0 (some .right) (row [stringLiteral, repeated stringLiteral])
  | stringLiteral => row [Token.stringStart, many (oneOf [interpolation, stringContent]), Token.stringEnd]
  | stringContent =>
    bound 0 (some .right)
      (repeated (oneOf [Token.doubledBrace, Token.escape, Token.backslash, Token.stringText]))
  | interpolation =>
    row ["\x7b", interpolated, optional "=", optional Token.conversion, optional formatSpecifier, "\x7d"]
  | interpolated => oneOf [expression, expressionList, targets, yielding]
  | formatSpecifier => row [":", many (oneOf [Token.formatText, interpolation])]

/-- What there is to know of sources before one is read. -/
def description : Description where
  tokenCount := Token.all.length
  rules := Phrase.all.map Phrase.rule
  extras := [Token.comment.number, Token.joint.number]
  word := Token.name.number
  keywords := .ofList (Token.keywords.map fun text => (Token.literal text).number)
  layout := .ofList (Token.layout.map Token.number)
  unskipped := .single Token.formatText.number
  clashes :=
    { table := (Token.all.map fun read =>
        NumberSet.ofList ((Token.all.drop 1).filter (Token.isMistakable read) |>.map Token.number)).toArray
      fixed := .ofList ((Token.layout ++ Token.closing).map Token.number) }
  isUnseen phrase := (Phrase.all.getD phrase source).isGlue && (Phrase.all.getD phrase source) != simpleLine

end ImportClosure.Python
