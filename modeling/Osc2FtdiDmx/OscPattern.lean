import Osc2FtdiDmx.GlobSyntax
import Osc2FtdiDmx.OscReader

/-! `lv2_osc_pattern_match` of util.h: OSC address patterns, their meaning, and their
translation into extended globs for `fnmatch`. -/
namespace Osc2FtdiDmx.OscPattern
open BytesEndian OscReader GlobLanguage GlobSyntax

def openBrace : Byte := 0x7b
def closeBrace : Byte := 0x7d

/-- One step of the loop that converts `{x,y}` to `@(x|y)`. -/
def convertByte (c : Byte) : List Byte :=
  if c = openBrace then [atSign, openParen] else
    if c = comma then [bar] else
      if c = closeBrace then [closeParen] else [c]

/-- The temporary pattern buffer, without its terminator. -/
def patternBuffer (src : List Byte) : List Byte :=
  if src.count openBrace ≠ 0 then src.flatMap convertByte else src

/-- `lv2_osc_pattern_match` on the `len` bytes at `from`. -/
def lv2OscPatternMatch (other : List Byte → List Byte → Bool) (src name : List Byte) : Bool :=
  fnmatch other (patternBuffer src) name

/-- The pattern buffer has `len + nbrace` bytes and the terminator: it is filled exactly. -/
lemma patternBuffer_length (src : List Byte) :
    (patternBuffer src).length = src.length + src.count openBrace := by
  have hloop : (src.flatMap convertByte).length = src.length + src.count openBrace := by
    induction src with
    | nil => rfl
    | cons c src ih =>
      rw [List.flatMap_cons, List.length_append, ih, List.length_cons, List.count_cons]
      by_cases hc : c = openBrace
      · simp [convertByte, hc]
        omega
      · have hone : (convertByte c).length = 1 := by
          simp only [convertByte, if_neg hc]
          split_ifs <;> rfl
        simp [hc, hone]
        omega
  rw [patternBuffer]
  split_ifs with h
  · exact hloop
  · omega

section Syntax

/-- A byte that stands for itself. -/
structure Literal where
  byte : Byte
  plain : byte ∉ [0, slash, quest, asterisk, openBracket, closeBracket, openBrace, closeBrace,
    comma, openParen, closeParen, bar]

/-- A byte that stands for itself in a set. -/
structure SetByte where
  byte : Byte
  plain : byte ∉ [0, slash, openBracket, closeBracket, openBrace, closeBrace, comma, dash, bang,
    caret]

inductive SetItem
  | byte (c : SetByte)
  | range (lo hi : SetByte)

mutual

/-- A component of an address pattern. -/
inductive Pattern
  | done
  | char (c : Literal) (rest : Pattern)
  | any (rest : Pattern)
  | star (rest : Pattern)
  | set (negated : Bool) (first : SetItem) (items : List SetItem) (rest : Pattern)
  | choice (alts : Choice) (rest : Pattern)

inductive Choice
  | last (p : Pattern)
  | more (p : Pattern) (alts : Choice)

end

def SetItem.render : SetItem → List Byte
  | .byte c => [c.byte]
  | .range lo hi => [lo.byte, dash, hi.byte]

def renderSet (negated : Bool) (items : List SetItem) : List Byte :=
  (if negated then [bang] else []) ++ (items.flatMap SetItem.render ++ [closeBracket])

mutual

/-- As it stands in an address. -/
def Pattern.render : Pattern → List Byte
  | .done => []
  | .char c rest => c.byte :: rest.render
  | .any rest => quest :: rest.render
  | .star rest => asterisk :: rest.render
  | .set negated first items rest =>
      openBracket :: (renderSet negated (first :: items) ++ rest.render)
  | .choice alts rest => openBrace :: (alts.render ++ rest.render)

def Choice.render : Choice → List Byte
  | .last p => p.render ++ [closeBrace]
  | .more p alts => p.render ++ comma :: alts.render

end

/-- The bytes that an item of a set stands for. -/
def SetItem.Has (a : Byte) : SetItem → Prop
  | .byte c => a = c.byte
  | .range lo hi => lo.byte ≤ a ∧ a ≤ hi.byte

mutual

/-- The names that a component matches. -/
def Pattern.names : Pattern → Language Byte
  | .done => 1
  | .char c rest => letters (· = c.byte) * rest.names
  | .any rest => letters (fun _ => True) * rest.names
  | .star rest => ⊤ * rest.names
  | .set negated first items rest =>
      letters (fun a => (∃ item ∈ first :: items, item.Has a) ↔ negated = false) * rest.names
  | .choice alts rest => alts.names * rest.names

def Choice.names : Choice → Language Byte
  | .last p => p.names
  | .more p alts => p.names + alts.names

end

end Syntax

section Translation

def SetItem.bounds : SetItem → Byte × Byte
  | .byte c => (c.byte, c.byte)
  | .range lo hi => (lo.byte, hi.byte)

mutual

/-- The glob that a component is translated into. -/
def Pattern.glob : Pattern → Glob Byte
  | .done => .empty
  | .char c rest => .char c.byte rest.glob
  | .any rest => .any rest.glob
  | .star rest => .star rest.glob
  | .set negated first items rest =>
      .set negated ((first :: items).map SetItem.bounds) rest.glob
  | .choice alts rest => .group .once alts.glob rest.glob

def Choice.glob : Choice → Alts Byte
  | .last p => .last p.glob
  | .more p alts => .more p.glob alts.glob

end

lemma SetItem.has_bounds (item : SetItem) (a : Byte) :
    item.Has a ↔ item.bounds.1 ≤ a ∧ a ≤ item.bounds.2 := by
  cases item with
  | byte c =>
    refine ⟨fun h => ?_, fun h => BitVec.le_antisymm h.2 h.1⟩
    rw [SetItem.Has] at h
    rw [h]
    exact ⟨BitVec.le_refl _, BitVec.le_refl _⟩
  | range lo hi => rfl

lemma inSet_items (negated : Bool) (items : List SetItem) (a : Byte) :
    inSet negated (items.map SetItem.bounds) a = true ↔
      ((∃ item ∈ items, item.Has a) ↔ negated = false) := by
  have hany : ((items.map SetItem.bounds).any fun r => r.1 ≤ a ∧ a ≤ r.2) = true ↔
      ∃ item ∈ items, item.Has a := by
    simp [SetItem.has_bounds]
  rw [← hany, inSet]
  cases negated <;> simp

mutual

/-- The translation keeps the meaning. -/
lemma Pattern.glob_lang : ∀ p : Pattern, p.glob.lang = p.names
  | .done => by rw [Pattern.glob, Glob.lang, Pattern.names]
  | .char c rest => by rw [Pattern.glob, Glob.lang, Pattern.names, rest.glob_lang]
  | .any rest => by rw [Pattern.glob, Glob.lang, Pattern.names, rest.glob_lang]
  | .star rest => by rw [Pattern.glob, Glob.lang, Pattern.names, rest.glob_lang]
  | .set negated first items rest => by
      rw [Pattern.glob, Glob.lang, Pattern.names, rest.glob_lang]
      simp only [inSet_items]
  | .choice alts rest => by
      rw [Pattern.glob, Glob.lang, Pattern.names, rest.glob_lang, alts.glob_lang, GroupOp.lang]

lemma Choice.glob_lang : ∀ alts : Choice, alts.glob.lang = alts.names
  | .last p => by rw [Choice.glob, Alts.lang, Choice.names, p.glob_lang]
  | .more p alts => by rw [Choice.glob, Alts.lang, Choice.names, p.glob_lang, alts.glob_lang]

end

end Translation

section Text

mutual

/-- The component as a glob, byte for byte. -/
def Pattern.text : Pattern → List Byte
  | .done => []
  | .char c rest => c.byte :: rest.text
  | .any rest => quest :: rest.text
  | .star rest => asterisk :: rest.text
  | .set negated first items rest =>
      openBracket :: (renderSet negated (first :: items) ++ rest.text)
  | .choice alts rest => atSign :: openParen :: (alts.text ++ rest.text)

def Choice.text : Choice → List Byte
  | .last p => p.text ++ [closeParen]
  | .more p alts => p.text ++ bar :: alts.text

end

lemma convertByte_other {c : Byte} (h : c ∉ [openBrace, comma, closeBrace]) :
    convertByte c = [c] := by
  simp only [List.mem_cons, List.not_mem_nil, or_false, not_or] at h
  rw [convertByte, if_neg h.1, if_neg h.2.1, if_neg h.2.2]

lemma Literal.kept (c : Literal) : c.byte ∉ [openBrace, comma, closeBrace] := by
  have hplain := c.plain
  simp only [List.mem_cons, List.not_mem_nil, or_false, not_or] at hplain ⊢
  tauto

lemma SetByte.kept (c : SetByte) : c.byte ∉ [openBrace, comma, closeBrace] := by
  have hplain := c.plain
  simp only [List.mem_cons, List.not_mem_nil, or_false, not_or] at hplain ⊢
  tauto

lemma mem_renderSet {negated : Bool} {items : List SetItem} {c : Byte}
    (hc : c ∈ renderSet negated items) : c ∈ [bang, closeBracket, dash] ∨ ∃ b : SetByte, c = b.byte := by
  rw [renderSet, List.mem_append, List.mem_append, List.mem_flatMap] at hc
  obtain hbang | ⟨item, -, hitem⟩ | hend := hc
  · split_ifs at hbang
    · simp [List.mem_singleton.mp hbang]
    · cases hbang
  · cases item with
    | byte b => exact .inr ⟨b, List.mem_singleton.mp hitem⟩
    | range lo hi =>
      simp only [SetItem.render, List.mem_cons, List.not_mem_nil, or_false] at hitem
      obtain rfl | rfl | rfl := hitem
      · exact .inr ⟨lo, rfl⟩
      · simp
      · exact .inr ⟨hi, rfl⟩
  · simp [List.mem_singleton.mp hend]

/-- No byte of a set is converted. -/
lemma renderSet_kept {negated : Bool} {items : List SetItem} {c : Byte}
    (hc : c ∈ renderSet negated items) : c ∉ [openBrace, comma, closeBrace] := by
  obtain hmark | ⟨b, rfl⟩ := mem_renderSet hc
  · clear hc
    revert c
    decide
  · exact b.kept

lemma convert_kept {bs : List Byte} (h : ∀ c ∈ bs, c ∉ [openBrace, comma, closeBrace]) :
    bs.flatMap convertByte = bs := by
  induction bs with
  | nil => rfl
  | cons c bs ih =>
    obtain ⟨hc, hbs⟩ := List.forall_mem_cons.mp h
    rw [List.flatMap_cons, convertByte_other hc, ih hbs]
    rfl

lemma convertByte_open : convertByte openBrace = [atSign, openParen] := if_pos rfl

lemma convertByte_comma : convertByte comma = [bar] := by decide

lemma convertByte_close : convertByte closeBrace = [closeParen] := by decide

mutual

/-- The loop writes the glob. -/
lemma Pattern.convert : ∀ p : Pattern, p.render.flatMap convertByte = p.text
  | .done => by rw [Pattern.render, Pattern.text, List.flatMap_nil]
  | .char c rest => by
      rw [Pattern.render, Pattern.text, List.flatMap_cons, convertByte_other c.kept, rest.convert]
      rfl
  | .any rest => by
      rw [Pattern.render, Pattern.text, List.flatMap_cons, convertByte_other (by decide),
        rest.convert]
      rfl
  | .star rest => by
      rw [Pattern.render, Pattern.text, List.flatMap_cons, convertByte_other (by decide),
        rest.convert]
      rfl
  | .set negated first items rest => by
      rw [Pattern.render, Pattern.text, List.flatMap_cons, convertByte_other (by decide),
        List.flatMap_append, convert_kept fun _ => renderSet_kept, rest.convert]
      rfl
  | .choice alts rest => by
      rw [Pattern.render, Pattern.text, List.flatMap_cons, convertByte_open, List.flatMap_append,
        alts.convert, rest.convert]
      rfl

lemma Choice.convert : ∀ alts : Choice, alts.render.flatMap convertByte = alts.text
  | .last p => by
      rw [Choice.render, Choice.text, List.flatMap_append, p.convert, List.flatMap_singleton,
        convertByte_close]
  | .more p alts => by
      rw [Choice.render, Choice.text, List.flatMap_append, p.convert, List.flatMap_cons,
        convertByte_comma, alts.convert]
      rfl

end

/-- Without an opening brace there is nothing to convert. -/
lemma Pattern.render_kept : ∀ p : Pattern, openBrace ∉ p.render →
    ∀ c ∈ p.render, c ∉ [openBrace, comma, closeBrace]
  | .done, _, c, hc => by
      rw [Pattern.render] at hc
      cases hc
  | .char b rest, h, c, hc => by
      rw [Pattern.render, List.mem_cons, not_or] at h
      rw [Pattern.render, List.mem_cons] at hc
      obtain rfl | hc := hc
      · exact b.kept
      · exact rest.render_kept h.2 c hc
  | .any rest, h, c, hc => by
      rw [Pattern.render, List.mem_cons, not_or] at h
      rw [Pattern.render, List.mem_cons] at hc
      obtain rfl | hc := hc
      · decide
      · exact rest.render_kept h.2 c hc
  | .star rest, h, c, hc => by
      rw [Pattern.render, List.mem_cons, not_or] at h
      rw [Pattern.render, List.mem_cons] at hc
      obtain rfl | hc := hc
      · decide
      · exact rest.render_kept h.2 c hc
  | .set negated first items rest, h, c, hc => by
      rw [Pattern.render, List.mem_cons, List.mem_append, not_or, not_or] at h
      rw [Pattern.render, List.mem_cons, List.mem_append] at hc
      obtain rfl | hset | hc := hc
      · decide
      · exact renderSet_kept hset
      · exact rest.render_kept h.2.2 c hc
  | .choice alts rest, h, c, hc => by
      rw [Pattern.render] at h
      exact absurd List.mem_cons_self h

/-- With and without braces the buffer holds the glob. -/
lemma patternBuffer_render (p : Pattern) : patternBuffer p.render = p.text := by
  rw [patternBuffer]
  split_ifs with h
  · exact p.convert
  · have hnone : openBrace ∉ p.render := by
      rw [← List.count_eq_zero]
      omega
    rw [← p.convert, convert_kept (p.render_kept hnone)]

end Text

section Reading

lemma SetByte.ne (c : SetByte) : c.byte ≠ closeBracket ∧ c.byte ≠ openBracket ∧ c.byte ≠ dash ∧
    c.byte ≠ bang ∧ c.byte ≠ caret := by
  have hplain := c.plain
  simp only [List.mem_cons, List.not_mem_nil, or_false, not_or] at hplain
  tauto

/-- What follows an item of a set is never the dash of a range. -/
lemma items_head (items : List SetItem) (ys : List Byte) :
    ∃ d zs, items.flatMap SetItem.render ++ closeBracket :: ys = d :: zs ∧ d ≠ dash := by
  cases items with
  | nil => exact ⟨closeBracket, ys, rfl, by decide⟩
  | cons item items =>
    cases item with
    | byte c => exact ⟨c.byte, _, rfl, c.ne.2.2.1⟩
    | range lo hi => exact ⟨lo.byte, _, rfl, lo.ne.2.2.1⟩

lemma parseRanges_byte {c d : Byte} (hclose : c ≠ closeBracket) (hopen : c ≠ openBracket)
    (hd : d ≠ dash) (n : ℕ) (zs : List Byte) : parseRanges (n + 1) (c :: d :: zs) =
      (parseRanges n (d :: zs)).map fun (ranges, ys) => ((c, c) :: ranges, ys) := by
  cases zs <;> simp [parseRanges, hclose, hopen, hd]

lemma parseRanges_range {c e : Byte} (hclose : c ≠ closeBracket) (hopen : c ≠ openBracket)
    (he : e ≠ closeBracket) (n : ℕ) (zs : List Byte) : parseRanges (n + 1) (c :: dash :: e :: zs) =
      (parseRanges n zs).map fun (ranges, ys) => ((c, e) :: ranges, ys) := by
  simp [parseRanges, hclose, hopen, he]

lemma parseRanges_items (items : List SetItem) (ys : List Byte) {n : ℕ}
    (hn : (items.flatMap SetItem.render).length < n) :
    parseRanges n (items.flatMap SetItem.render ++ closeBracket :: ys) =
      some (items.map SetItem.bounds, ys) := by
  induction items generalizing n with
  | nil =>
    obtain ⟨n, rfl⟩ : ∃ k, n = k + 1 := ⟨n - 1, by omega⟩
    rfl
  | cons item items ih =>
    rw [List.flatMap_cons, List.length_append] at hn
    rw [List.flatMap_cons, List.append_assoc]
    obtain ⟨n, rfl⟩ : ∃ k, n = k + 1 := ⟨n - 1, by omega⟩
    cases item with
    | byte c =>
      have hone : (SetItem.byte c).render.length = 1 := rfl
      obtain ⟨hclose, hopen, -, -, -⟩ := c.ne
      have hrest := ih (n := n) (by omega)
      obtain ⟨d, zs, hzs, hd⟩ := items_head items ys
      rw [hzs] at hrest ⊢
      change parseRanges (n + 1) (c.byte :: d :: zs) = _
      rw [parseRanges_byte hclose hopen hd, hrest]
      rfl
    | range lo hi =>
      have hthree : (SetItem.range lo hi).render.length = 3 := rfl
      obtain ⟨hclose, hopen, -, -, -⟩ := lo.ne
      have hrest := ih (n := n) (by omega)
      change parseRanges (n + 1) (lo.byte :: dash :: hi.byte :: _) = _
      rw [parseRanges_range hclose hopen hi.ne.1]
      exact congrArg _ hrest

/-- The first byte of an item. -/
lemma SetItem.render_head (item : SetItem) : ∃ c : SetByte, ∃ bs, item.render = c.byte :: bs := by
  cases item with
  | byte c => exact ⟨c, [], rfl⟩
  | range lo hi => exact ⟨lo, _, rfl⟩

lemma parseSet_render (negated : Bool) (first : SetItem) (items : List SetItem) (ys : List Byte) :
    parseSet (renderSet negated (first :: items) ++ ys) =
      some (negated, (first :: items).map SetItem.bounds, ys) := by
  obtain ⟨c, bs, hc⟩ := first.render_head
  obtain ⟨hclose, -, -, hbang, hcaret⟩ := c.ne
  have hranges (n : ℕ) (hn : ((first :: items).flatMap SetItem.render).length < n) :=
    parseRanges_items (first :: items) ys hn
  have hhead : (first :: items).flatMap SetItem.render ++ closeBracket :: ys =
      c.byte :: (bs ++ (items.flatMap SetItem.render ++ closeBracket :: ys)) := by
    simp [hc]
  cases negated with
  | false =>
    have hset : renderSet false (first :: items) ++ ys =
        (first :: items).flatMap SetItem.render ++ closeBracket :: ys := by
      simp [renderSet]
    have hlen := congrArg List.length hhead
    rw [hset, hhead, parseSet, if_neg (by simp [hclose, hcaret]), if_neg hbang, ← hhead, hranges]
    · rfl
    · simp only [List.length_append, List.length_cons] at hlen ⊢
      omega
  | true =>
    have hset : renderSet true (first :: items) ++ ys =
        bang :: ((first :: items).flatMap SetItem.render ++ closeBracket :: ys) := by
      simp [renderSet]
    rw [hset, parseSet, if_neg (by decide), if_pos rfl, if_neg (by rw [hhead]; simp [hclose]), hranges]
    · rfl
    · simp only [List.length_append, List.length_cons]
      omega

/-- Where a sequence ends: at the end of the pattern, or of the alternative it is. -/
def Stop (nested : Bool) (tail : List Byte) : Prop :=
  if nested then ∃ c ys, tail = c :: ys ∧ (c = bar ∨ c = closeParen) else tail = []

lemma Literal.ne (c : Literal) : c.byte ≠ openBracket ∧ c.byte ≠ bar ∧ c.byte ≠ closeParen ∧
    c.byte ≠ openParen ∧ c.byte ≠ quest ∧ c.byte ≠ asterisk := by
  have hplain := c.plain
  simp only [List.mem_cons, List.not_mem_nil, or_false, not_or] at hplain
  tauto

/-- No glob of a component starts with a parenthesis. -/
lemma text_head (p : Pattern) {nested : Bool} {tail : List Byte} (h : Stop nested tail) :
    (p.text ++ tail).head? ≠ some openParen := by
  cases p with
  | done =>
    rw [Pattern.text, List.nil_append]
    cases nested with
    | false =>
      obtain rfl : tail = [] := h
      simp
    | true =>
      obtain ⟨c, ys, rfl, rfl | rfl⟩ := h <;> simp [bar, closeParen, openParen]
  | char c rest => simpa [Pattern.text] using c.ne.2.2.2.1
  | any rest => simp [Pattern.text, quest, openParen]
  | star rest => simp [Pattern.text, asterisk, openParen]
  | set negated first items rest => simp [Pattern.text, openBracket, openParen]
  | choice alts rest => simp [Pattern.text, atSign, openParen]

/-- A byte that opens neither a set nor a group is read by itself. -/
lemma parseSeq_single {c : Byte} {xs : List Byte} {n : ℕ} {nested : Bool}
    (hstop : c ≠ bar ∧ c ≠ closeParen) (hset : c ≠ openBracket) (hhead : xs.head? ≠ some openParen) :
    parseSeq (n + 1) nested (c :: xs) =
      (parseSeq n nested xs).map fun (rest, zs) => (single c rest, zs) := by
  rw [parseSeq, if_neg (by simp [hstop]), if_neg hset, opensGroup, if_neg hhead]

mutual

/-- The parser reads the glob of a component. -/
lemma Pattern.parse_text : ∀ (p : Pattern) {n : ℕ} {nested : Bool} (tail : List Byte),
    2 * p.text.length < n → Stop nested tail →
      parseSeq n nested (p.text ++ tail) = some (p.glob, tail)
  | .done, n, nested, tail, hn, h => by
      obtain ⟨n, rfl⟩ : ∃ k, n = k + 1 := ⟨n - 1, by omega⟩
      rw [Pattern.text, List.nil_append, Pattern.glob]
      cases nested with
      | false =>
        obtain rfl : tail = [] := h
        rfl
      | true =>
        obtain ⟨c, ys, rfl, hc⟩ := h
        exact if_pos ⟨rfl, hc⟩
  | .char c rest, n, nested, tail, hn, h => by
      obtain ⟨n, rfl⟩ : ∃ k, n = k + 1 := ⟨n - 1, by omega⟩
      rw [Pattern.text, List.length_cons] at hn
      obtain ⟨hset, hbar, hclose, -, hquest, hasterisk⟩ := c.ne
      have hrest := rest.parse_text (n := n) tail (by omega) h
      rw [Pattern.text, List.cons_append, parseSeq_single ⟨hbar, hclose⟩ hset (text_head rest h),
        hrest, Pattern.glob]
      simp [single, hquest, hasterisk]
  | .any rest, n, nested, tail, hn, h => by
      obtain ⟨n, rfl⟩ : ∃ k, n = k + 1 := ⟨n - 1, by omega⟩
      rw [Pattern.text, List.length_cons] at hn
      have hrest := rest.parse_text (n := n) tail (by omega) h
      rw [Pattern.text, List.cons_append, parseSeq_single (by decide) (by decide)
        (text_head rest h), hrest, Pattern.glob]
      rfl
  | .star rest, n, nested, tail, hn, h => by
      obtain ⟨n, rfl⟩ : ∃ k, n = k + 1 := ⟨n - 1, by omega⟩
      rw [Pattern.text, List.length_cons] at hn
      have hrest := rest.parse_text (n := n) tail (by omega) h
      rw [Pattern.text, List.cons_append, parseSeq_single (by decide) (by decide)
        (text_head rest h), hrest, Pattern.glob]
      rfl
  | .set negated first items rest, n, nested, tail, hn, h => by
      obtain ⟨n, rfl⟩ : ∃ k, n = k + 1 := ⟨n - 1, by omega⟩
      rw [Pattern.text, List.length_cons, List.length_append] at hn
      have hrest := rest.parse_text (n := n) tail (by omega) h
      rw [Pattern.text, List.cons_append, List.append_assoc, parseSeq,
        if_neg (by simp [openBracket, bar, closeParen]), if_pos rfl, parseSet_render, Pattern.glob]
      simp [hrest]
  | .choice alts rest, n, nested, tail, hn, h => by
      obtain ⟨n, rfl⟩ : ∃ k, n = k + 1 := ⟨n - 1, by omega⟩
      simp only [Pattern.text, List.length_cons, List.length_append] at hn
      have halts := alts.parse_text (n := n) (rest.text ++ tail) (by omega)
      have hrest := rest.parse_text (n := n) tail (by omega) h
      rw [Pattern.text, List.cons_append, List.cons_append, List.append_assoc, parseSeq,
        if_neg (by simp [atSign, bar, closeParen]), if_neg (by decide), Pattern.glob]
      simp [opensGroup, groupOp, halts, hrest]

lemma Choice.parse_text : ∀ (alts : Choice) {n : ℕ} (tail : List Byte),
    2 * alts.text.length ≤ n → parseAlts n (alts.text ++ tail) = some (alts.glob, tail)
  | .last p, n, tail, hn => by
      simp only [Choice.text, List.length_append, List.length_singleton] at hn
      obtain ⟨n, rfl⟩ : ∃ k, n = k + 1 := ⟨n - 1, by omega⟩
      have hstop : Stop true (closeParen :: tail) := ⟨_, _, rfl, .inr rfl⟩
      have hp := p.parse_text (n := n) _ (by omega) hstop
      rw [Choice.text, List.append_assoc, List.singleton_append, parseAlts, hp, Choice.glob]
      exact if_pos rfl
  | .more p alts, n, tail, hn => by
      simp only [Choice.text, List.length_append, List.length_cons] at hn
      obtain ⟨n, rfl⟩ : ∃ k, n = k + 1 := ⟨n - 1, by omega⟩
      have hstop : Stop true (bar :: (alts.text ++ tail)) := ⟨_, _, rfl, .inl rfl⟩
      have hp := p.parse_text (n := n) _ (by omega) hstop
      have halts := alts.parse_text (n := n) tail (by omega)
      rw [Choice.text, List.append_assoc, List.cons_append, parseAlts, hp, Choice.glob]
      simp [bar, closeParen, halts]

end

lemma parseGlob_text (p : Pattern) : parseGlob p.text = some p.glob := by
  have hstop : Stop false [] := rfl
  have hparse := p.parse_text (n := 2 * p.text.length + 1) [] (by omega) hstop
  rw [List.append_nil] at hparse
  rw [parseGlob, hparse]

/-- A component in which no star is followed by nothing but alternatives and wildcards that
may all be empty. -/
structure Component where
  pattern : Pattern
  firm : steady true false pattern.glob = true

def Component.render (p : Component) : List Byte := p.pattern.render

def Component.names (p : Component) : Language Byte := p.pattern.names

/-- What `fnmatch` is asked. -/
lemma match_glob (other : List Byte → List Byte → Bool) (p : Component) (name : List Byte) :
    lv2OscPatternMatch other p.render name = p.pattern.glob.accepts name := by
  rw [lv2OscPatternMatch, Component.render, patternBuffer_render, fnmatch, parseGlob_text]
  exact if_pos p.firm

lemma mem_names (p : Component) (name : List Byte) :
    name ∈ p.names ↔ p.pattern.glob.accepts name = true := by
  rw [Glob.accepts_iff, p.pattern.glob_lang]
  rfl

end Reading

/-- The pattern buffer of a component is filled up to the place of its terminator, and the
component matches exactly the names it means, whatever wildcards, sets and (nested)
alternatives it is made of, and whatever `fnmatch` does beyond them. -/
theorem pattern_names (other : List Byte → List Byte → Bool) (p : Component) (name : List Byte) :
    (patternBuffer p.render).length = p.render.length + p.render.count openBrace ∧
      (lv2OscPatternMatch other p.render name = true ↔ name ∈ p.names) := by
  refine ⟨patternBuffer_length p.render, ?_⟩
  rw [match_glob, mem_names]

/-- `{23,24,25,26}` and the names of the channels 23 and 27. -/
example : (lv2OscPatternMatch (fun _ _ => true) [0x7b, 0x32, 0x33, 0x2c, 0x32, 0x34, 0x2c, 0x32,
      0x35, 0x2c, 0x32, 0x36, 0x7d] [0x32, 0x33] = true) ∧
    lv2OscPatternMatch (fun _ _ => true) [0x7b, 0x32, 0x33, 0x2c, 0x32, 0x34, 0x2c, 0x32,
      0x35, 0x2c, 0x32, 0x36, 0x7d] [0x32, 0x37] = false := by
  decide +kernel

/-- What becomes of `1*{,0}` is left to `fnmatch`, what becomes of `*{1,2}` is not. -/
example (other : List Byte → List Byte → Bool) : lv2OscPatternMatch other
      [0x31, asterisk, 0x7b, comma, 0x30, 0x7d] [0x31] = other [0x31, asterisk, atSign, openParen,
      bar, 0x30, closeParen] [0x31] ∧
    lv2OscPatternMatch other [asterisk, 0x7b, 0x31, comma, 0x32, 0x7d] [0x30, 0x31] = true :=
  ⟨rfl, rfl⟩

end Osc2FtdiDmx.OscPattern
