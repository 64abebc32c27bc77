/-!
# Phrases

The kinds of phrases in a source, from the whole source down to the operands.
-/

namespace ImportClosure.Python

/-- A kind of phrase. -/
inductive Phrase where
  | source | statement | simpleLine
  -- imports
  | importStatement | leadingDots | relativeName | futureImport | fromImport | importedNames | renamedName | everything
  -- simple statements
  | printStatement | redirection | assertStatement | expressionStatement | namedExpression | assignedName
  | returnStatement | deleteStatement | raiseStatement | passStatement | breakStatement | continueStatement
  -- compound statements
  | ifStatement | elifClause | elseClause | matchStatement | matchBlock | caseClause | forStatement | whileStatement
  | tryStatement | exceptClause | exceptGroupClause | finallyClause | withStatement | withClause | withItem
  -- definitions
  | functionDefinition | parameters | lambdaParameters | spread | dictionarySpread | globalStatement
  | nonlocalStatement | execStatement | typeAlias | classDefinition | typeParameters | groupedSpread | arguments
  | decoratedDefinition | decorator | block | expressionList | dottedName
  -- case patterns
  | casePattern | simplePattern | capturePattern | choicePattern | sequencePattern | groupPattern | mappingPattern
  | mappingEntry | keywordPattern | restPattern | classPattern | complexPattern
  -- targets and parameters
  | parameterList | targetList | parameter | target | tupleTarget | listTarget | defaultParameter
  | typedDefaultParameter | spreadTarget | dictionarySpreadTarget | capture
  -- expressions
  | elementSource | expression | operand | negation | conjunction | operation | signed | notIn | isNot | comparison
  | lambda | elementLambda | assignment | augmentedAssignment | targets | assignedValue | yielding | member
  | subscript | slice | call | typedParameter
  -- types
  | typeExpression | spreadType | genericType | unionType | constrainedType | memberType
  -- collections and strings
  | keywordArgument | listDisplay | setDisplay | tupleDisplay | dictionaryDisplay | pair | listComprehension
  | dictionaryComprehension | setComprehension | generator | comprehensionClauses | parenthesized | elements
  | forInClause | ifClause | conditional | strings | stringLiteral | stringContent | interpolation | interpolated
  | formatSpecifier | awaiting | positionalMark | keywordMark
  deriving DecidableEq, Inhabited

namespace Phrase

/-- All phrases, in the order of their numbers. -/
def all : List Phrase :=
  [source, statement, simpleLine, importStatement, leadingDots, relativeName, futureImport, fromImport, importedNames,
    renamedName, everything, printStatement, redirection, assertStatement, expressionStatement, namedExpression,
    assignedName, returnStatement, deleteStatement, raiseStatement, passStatement, breakStatement, continueStatement,
    ifStatement, elifClause, elseClause, matchStatement, matchBlock, caseClause, forStatement, whileStatement,
    tryStatement, exceptClause, exceptGroupClause, finallyClause, withStatement, withClause, withItem,
    functionDefinition, parameters, lambdaParameters, spread, dictionarySpread, globalStatement, nonlocalStatement,
    execStatement, typeAlias, classDefinition, typeParameters, groupedSpread, arguments, decoratedDefinition, decorator,
    block, expressionList, dottedName, casePattern, simplePattern, capturePattern, choicePattern, sequencePattern,
    groupPattern, mappingPattern, mappingEntry, keywordPattern, restPattern, classPattern, complexPattern,
    parameterList, targetList, parameter, target, tupleTarget, listTarget, defaultParameter, typedDefaultParameter,
    spreadTarget, dictionarySpreadTarget, capture, elementSource, expression, operand, negation, conjunction, operation,
    signed, notIn, isNot, comparison, lambda, elementLambda, assignment, augmentedAssignment, targets, assignedValue,
    yielding, member, subscript, slice, call, typedParameter, typeExpression, spreadType, genericType, unionType,
    constrainedType, memberType, keywordArgument, listDisplay, setDisplay, tupleDisplay, dictionaryDisplay, pair,
    listComprehension, dictionaryComprehension, setComprehension, generator, comprehensionClauses, parenthesized,
    elements, forInClause, ifClause, conditional, strings, stringLiteral, stringContent, interpolation, interpolated,
    formatSpecifier, awaiting, positionalMark, keywordMark]

def number (p : Phrase) : Nat := all.idxOf p

/-- The phrases that stand for one of several others and add nothing to it. -/
def isCategory : Phrase → Bool
  | expression | operand | target | parameter => true
  | _ => false

/-- The phrases that only hold others together. -/
def isGlue : Phrase → Bool
  | statement | simpleLine | importedNames | assignedName | simplePattern | mappingEntry | parameterList | targetList
  | elementSource | assignedValue | comprehensionClauses | elements | interpolated => true
  | _ => false

/-- Whether a phrase stands for itself in a tree, and not only for its parts. -/
def isShown (p : Phrase) : Bool := !p.isCategory && !p.isGlue

end Phrase

end ImportClosure.Python
