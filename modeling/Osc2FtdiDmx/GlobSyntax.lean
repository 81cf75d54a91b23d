import Osc2FtdiDmx.BytesEndian
import Osc2FtdiDmx.GlobLanguage

/-! The syntax of extended globs as byte strings: how a glob is written, and a parser that
reads back what was written. -/
namespace Osc2FtdiDmx.GlobSyntax
open BytesEndian GlobLanguage

def quest : Byte := 0x3f
def asterisk : Byte := 0x2a
def plus : Byte := 0x2b
def atSign : Byte := 0x40
def bang : Byte := 0x21
def caret : Byte := 0x5e
def dash : Byte := 0x2d
def bar : Byte := 0x7c
def openParen : Byte := 0x28
def closeParen : Byte := 0x29
def openBracket : Byte := 0x5b
def closeBracket : Byte := 0x5d

/-- The group that a byte opens in front of a parenthesis. -/
def groupOp (c : Byte) : Option GroupOp :=
  if c = atSign then some .once else
    if c = quest then some .optional else
      if c = asterisk then some .repeated else
        if c = plus then some .atLeastOnce else
          if c = bang then some .excluded else none

def opensGroup (c : Byte) (xs : List Byte) : Option GroupOp :=
  if xs.head? = some openParen then groupOp c else none

section Parser

/-- The ranges of a set up to the bracket that closes it. Collating elements and classes,
which start with another bracket, are not read. -/
def parseRanges : ℕ → List Byte → Option (List (Byte × Byte) × List Byte)
  | 0, _ => none
  | _ + 1, [] => none
  | n + 1, c :: xs =>
      if c = closeBracket then some ([], xs) else
        if c = openBracket then none else
          match xs with
          | d :: e :: ys =>
              if d = dash ∧ e ≠ closeBracket then
                (parseRanges n ys).map fun (ranges, zs) => ((c, e) :: ranges, zs)
              else (parseRanges n xs).map fun (ranges, zs) => ((c, c) :: ranges, zs)
          | _ => (parseRanges n xs).map fun (ranges, zs) => ((c, c) :: ranges, zs)

/-- A set behind its opening bracket. One that starts with a bracket or a caret is not
read. -/
def parseSet : List Byte → Option (Bool × List (Byte × Byte) × List Byte)
  | [] => none
  | c :: xs =>
      if c = caret ∨ c = closeBracket then none else
        if c = bang then
          if xs.head? = some closeBracket then none
          else (parseRanges xs.length xs).map fun (ranges, ys) => (true, ranges, ys)
        else (parseRanges (xs.length + 1) (c :: xs)).map fun (ranges, ys) => (false, ranges, ys)

/-- A byte that is neither the start of a set nor of a group. -/
def single (c : Byte) (rest : Glob Byte) : Glob Byte :=
  if c = quest then .any rest else if c = asterisk then .star rest else .char c rest

mutual

/-- A glob, up to a bar or a closing parenthesis where it stands in a group. -/
def parseSeq : ℕ → Bool → List Byte → Option (Glob Byte × List Byte)
  | 0, _, _ => none
  | _ + 1, nested, [] => if nested then none else some (.empty, [])
  | n + 1, nested, c :: xs =>
      if nested ∧ (c = bar ∨ c = closeParen) then some (.empty, c :: xs) else
        if c = openBracket then
          match parseSet xs with
          | none => none
          | some (negated, ranges, ys) =>
              (parseSeq n nested ys).map fun (rest, zs) => (.set negated ranges rest, zs)
        else
          match opensGroup c xs with
          | some op =>
              match parseAlts n xs.tail with
              | none => none
              | some (alts, ys) =>
                  (parseSeq n nested ys).map fun (rest, zs) => (.group op alts rest, zs)
          | none => (parseSeq n nested xs).map fun (rest, zs) => (single c rest, zs)

/-- Alternatives, up to the closing parenthesis. -/
def parseAlts : ℕ → List Byte → Option (Alts Byte × List Byte)
  | 0, _ => none
  | n + 1, xs =>
      match parseSeq n true xs with
      | some (g, c :: ys) =>
          if c = closeParen then some (.last g, ys)
          else (parseAlts n ys).map fun (alts, zs) => (.more g alts, zs)
      | _ => none

end

def parseGlob (xs : List Byte) : Option (Glob Byte) :=
  match parseSeq (2 * xs.length + 1) false xs with
  | some (g, []) => some g
  | _ => none

end Parser

section Stars

/-- What is left behind a star and the wildcards that follow it starts with a group, and can
match the empty word. `nil` and `tail` tell whether what comes after the glob matches the
empty word, and whether it is hollow itself. -/
def hollow (nil tail : Bool) : Glob Byte → Bool
  | .empty => tail
  | .char _ _ | .set _ _ _ => false
  | .any rest | .star rest => hollow nil tail rest
  | .group op alts rest => nil && (Glob.group op alts rest).accepts []

mutual

/-- No star is followed by something hollow, and every group is one of `@(...)`. -/
def steady (nil tail : Bool) : Glob Byte → Bool
  | .empty => true
  | .char _ rest | .any rest | .set _ _ rest => steady nil tail rest
  | .star rest => !hollow nil tail rest && steady nil tail rest
  | .group op alts rest =>
      op = .once && steadyAlts (nil && rest.accepts []) (hollow nil tail rest) alts &&
        steady nil tail rest

def steadyAlts (nil tail : Bool) : Alts Byte → Bool
  | .last g => steady nil tail g
  | .more g alts => steady nil tail g && steadyAlts nil tail alts

end

end Stars

/-- `fnmatch` with FNM_NOESCAPE and FNM_EXTMATCH in the C locale. Behind a star it tries a
group only in front of a byte, and so not at the end of the string. What it makes of a
pattern where this matters, and of one that `parseGlob` does not read, is left open. -/
def fnmatch (other : List Byte → List Byte → Bool) (pattern string : List Byte) : Bool :=
  match parseGlob pattern with
  | some g => if steady true false g then g.accepts string else other pattern string
  | none => other pattern string

end Osc2FtdiDmx.GlobSyntax
