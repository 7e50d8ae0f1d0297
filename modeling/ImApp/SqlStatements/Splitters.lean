import ImApp.Library.Regex

/-!
The two splitters of a SQL text into statements: the one of the restore task, and the one
that the query runner and the read-only gate use.
-/

namespace ImApp.SqlStatements

open JsonText (Text)
open Regex (isBlank seqs literal anyCase blanks)

/-- Inside of what a splitter is. Its flags for quotes and comments exclude each other. -/
inductive Lex where
  | plain
  | lineComment
  | blockComment
  | quote (mark : Char)
  deriving DecidableEq

def isQuote (char : Char) : Bool := char = '\'' || char = '"' || char = '\x60'

/-- A loop over the characters of a text. A turn may take more characters than its own. -/
def scan {σ : Type} (turn : σ → Nat → Char → Text → σ × Nat) : σ → Nat → Nat → Text → σ
  | s, _, _, [] => s
  | s, index, more + 1, _ :: rest => scan turn s (index + 1) more rest
  | s, index, 0, char :: rest => let next := turn s index char rest
    scan turn next.1 (index + 1) next.2 rest

def boundaryText : String := "-- ENVMAN_STATEMENT_BOUNDARY"

/-- `\r?\n` -/
def lineEnd : List Regex := [.optional (.one (· = '\r')), .one (· = '\n')]

def boundary : Regex := seqs (lineEnd ++ literal boundaryText :: lineEnd)

def hasBoundary (sql : Text) : Bool := (literal boundaryText).test sql

/-- The trimmed text, unless nothing is left. -/
def filled (text : Text) : List Text := if JsNumber.trim text = [] then [] else [JsNumber.trim text]

structure Cut where
  statements : List Text
  current : Text
  lex : Lex

def Cut.turn (s : Cut) (_ : Nat) (char : Char) (rest : Text) : Cut × Nat :=
  let next := rest.head?
  match s.lex with
  | .lineComment =>
    ({ s with current := s.current ++ [char], lex := if char = '\n' then .plain else .lineComment }, 0)
  | .blockComment =>
    if char = '*' ∧ next = some '/' then
      ({ s with current := s.current ++ [char, '/'], lex := .plain }, 1)
    else ({ s with current := s.current ++ [char] }, 0)
  | .quote mark =>
    if char = '\\' ∧ next.isSome then
      ({ s with current := s.current ++ char :: next.toList }, 1)
    else if char = mark then
      if next = some mark then ({ s with current := s.current ++ [char, mark] }, 1)
      else ({ s with current := s.current ++ [char], lex := .plain }, 0)
    else ({ s with current := s.current ++ [char] }, 0)
  | .plain =>
    if char = '-' ∧ next = some '-' then
      ({ s with current := s.current ++ [char], lex := .lineComment }, 0)
    else if char = '#' then ({ s with current := s.current ++ [char], lex := .lineComment }, 0)
    else if char = '/' ∧ next = some '*' then
      ({ s with current := s.current ++ [char], lex := .blockComment }, 0)
    else if isQuote char then
      ({ s with current := s.current ++ [char], lex := .quote char }, 0)
    else if char = ';' then
      ({ s with statements := s.statements ++ filled s.current, current := [] }, 0)
    else ({ s with current := s.current ++ [char] }, 0)

def splitSql (sql : Text) : List Text :=
  if hasBoundary sql then (boundary.split sql).flatMap filled
  else
    let done := scan Cut.turn ⟨[], [], .plain⟩ 0 0 sql
    done.statements ++ filled done.current

structure SqlStatement where
  sql : Text
  start : Nat
  stop : Nat

def trimmedStatement (source : Text) (start stop : Nat) : Option SqlStatement :=
  let slice := (source.take stop).drop start
  let lead := (slice.takeWhile isBlank).length
  let text := JsNumber.trim slice
  if text = [] then none else some ⟨text, start + lead, start + lead + text.length⟩

/-- `/^\s*DELIMITER\s+(\S+)\s*$/i`, the first group of a match. -/
def directive (line : Text) : Option Text :=
  (((seqs [blanks 0, anyCase "DELIMITER", blanks 1, .group (.many 1 fun c => !isBlank c),
      blanks 0]).ends (Regex.Spot.start line)).find? (·.rest.isEmpty)).bind (·.groups.head?)

structure Parse where
  statements : List SqlStatement
  delimiter : Text
  statementStart : Nat
  lex : Lex

def Parse.readLex (s : Parse) (source : Text) (index : Nat) (char : Char) (rest : Text) : Parse × Nat :=
  let next := rest.head?
  match s.lex with
  | .lineComment => ({ s with lex := if char = '\n' then .plain else .lineComment }, 0)
  | .blockComment => if char = '*' ∧ next = some '/' then ({ s with lex := .plain }, 1) else (s, 0)
  | .quote mark =>
    if char = '\\' ∧ next.isSome then (s, 1)
    else if char = mark then
      if next = some mark then (s, 1) else ({ s with lex := .plain }, 0)
    else (s, 0)
  | .plain =>
    if char = '-' ∧ next = some '-' then ({ s with lex := .lineComment }, 1)
    else if char = '#' then ({ s with lex := .lineComment }, 0)
    else if char = '/' ∧ next = some '*' then ({ s with lex := .blockComment }, 1)
    else if isQuote char then ({ s with lex := .quote char }, 0)
    else if s.delimiter ≠ [] ∧ s.delimiter.isPrefixOf (char :: rest) then
      ({ s with
          statements := s.statements ++ (trimmedStatement source s.statementStart index).toList
          statementStart := index + s.delimiter.length }, s.delimiter.length - 1)
    else (s, 0)

def Parse.turn (source : Text) (s : Parse) (index : Nat) (char : Char) (rest : Text) : Parse × Nat :=
  let lineStart := index = 0 ∨ source[index - 1]? = some '\n'
  if s.lex = .plain ∧ lineStart then
    let line := (char :: rest).takeWhile (· ≠ '\n')
    match directive line, trimmedStatement source s.statementStart index with
    | some delimiter, none =>
      ({ s with delimiter, statementStart := min (index + line.length + 1) source.length }, line.length)
    | _, _ => s.readLex source index char rest
  else s.readLex source index char rest

/-- The statements between the matches of the boundary. -/
def slices (source : Text) : List (Regex.Spot × Regex.Spot) → Nat → List SqlStatement
  | [], start => (trimmedStatement source start source.length).toList
  | (s, e) :: more, start =>
    (trimmedStatement source start s.before.length).toList ++ slices source more e.before.length

def parseSqlStatements (source : Text) : List SqlStatement :=
  if hasBoundary source then slices source (boundary.matchAll source) 0
  else
    let done := scan (Parse.turn source) ⟨[], [';'], 0, .plain⟩ 0 0 source
    done.statements ++ (trimmedStatement source done.statementStart source.length).toList

def splitSqlStatements (source : Text) : List Text := (parseSqlStatements source).map (·.sql)

end ImApp.SqlStatements
