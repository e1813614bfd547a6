/-
# The words of a text cover it

Splitting at white space loses nothing: between two words, before the first one and behind the last
one there is white space only, and at least some between two of them. Spans count bytes while the
splitting looks at characters, so each step is counted in both: a text is cut into a gap, a word and
a rest that starts blank, and the word starts as many bytes on as the gap has.

Key definitions: `byteCount`, `Cut`, `BlankBetween`, `Stands`, `Covers`.
Key theorems: `cut_wordsFrom`, `Cut.covers`, `lex_covers`.
-/
import BottomUp.Proofs.Outcome
import BottomUp.Samples
import BottomUp.Words

namespace BottomUp

/-! ### Bytes -/

/-- The number of bytes that characters take. -/
def byteCount (cs : List Char) : Nat := (String.ofList cs).utf8ByteSize

@[simp] theorem byteCount_nil : byteCount [] = 0 := rfl

@[simp] theorem byteCount_append (cs cs' : List Char) :
    byteCount (cs ++ cs') = byteCount cs + byteCount cs' := by
  rw [byteCount, String.ofList_append, String.utf8ByteSize_append, byteCount, byteCount]

@[simp] theorem byteCount_cons (c : Char) (cs : List Char) :
    byteCount (c :: cs) = c.utf8Size + byteCount cs := by
  have hc : byteCount [c] = c.utf8Size := by
    rw [byteCount, ← String.singleton_eq_ofList, String.utf8ByteSize_singleton]
  rw [← hc, ← byteCount_append, List.singleton_append]

@[simp] theorem byteCount_toList (text : String) : byteCount text.toList = text.utf8ByteSize := by
  rw [byteCount, String.ofList_toList]

theorem byteCount_eq_zero {cs : List Char} : byteCount cs = 0 ↔ cs = [] := by
  cases cs with
  | nil => simp
  | cons c cs =>
    have := c.utf8Size_pos
    simp only [byteCount_cons, reduceCtorEq, iff_false]
    omega

/-- The bytes of a piece are found behind the bytes of what stands before it. -/
theorem extract_piece {text : String} {before piece behind : List Char}
    (h : text.toList = before ++ (piece ++ behind)) :
    text.toByteArray.extract (byteCount before) (byteCount before + byteCount piece) =
      (String.ofList piece).toByteArray := by
  have htext : text = String.ofList before ++ (String.ofList piece ++ String.ofList behind) := by
    rw [← String.ofList_append, ← String.ofList_append, ← h, String.ofList_toList]
  rw [htext, String.toByteArray_append, String.toByteArray_append, byteCount, byteCount,
    ← String.size_toByteArray, ← String.size_toByteArray,
    ← Nat.add_zero (String.ofList before).toByteArray.size, Nat.add_assoc,
    ByteArray.extract_append_size_add]
  exact ByteArray.extract_append_eq_left (Nat.zero_add _)

/-! ### Words and gaps -/

/-- Whether characters are all blank. -/
def AllBlank (cs : List Char) : Prop := ∀ c ∈ cs, Text.isBlank c

/-- Characters that stand behind so many bytes are cut into words: before each word there is a gap,
and what follows it starts blank. -/
inductive Cut : Nat → List Char → List Word → Prop where
  | gap {position : Nat} {gap : List Char} (hgap : AllBlank gap) : Cut position gap []
  | word {position : Nat} {gap rest : List Char} {w : Word} {ws : List Word} (hgap : AllBlank gap)
      (hindex : w.index = position + byteCount gap) (hne : w.chars ≠ [])
      (hsolid : ∀ c ∈ w.chars, ¬ Text.isBlank c) (hrest : ∀ c ∈ rest.head?, Text.isBlank c)
      (hcut : Cut (w.index + byteCount w.chars) rest ws) :
      Cut position (gap ++ (w.chars ++ rest)) (w :: ws)

namespace Cut

variable {position : Nat} {c : Char} {cs : List Char} {w : Word} {ws : List Word}

/-- A blank character makes the first gap longer. -/
theorem cons_blank (h : Cut (position + c.utf8Size) cs ws) (hc : Text.isBlank c) :
    Cut position (c :: cs) ws := by
  have longer {gap : List Char} (hgap : AllBlank gap) : AllBlank (c :: gap) :=
    List.forall_mem_cons.2 ⟨hc, hgap⟩
  cases h with
  | gap hgap => exact .gap (longer hgap)
  | @word _ gap rest w ws hgap hindex hne hsolid hrest hcut =>
    rw [← List.cons_append]
    refine .word (longer hgap) ?_ hne hsolid hrest hcut
    rw [hindex, byteCount_cons, Nat.add_assoc]

/-- A character that is not blank, before what starts blank, is a word. -/
theorem cons_single (h : Cut (position + c.utf8Size) cs ws) (hc : ¬ Text.isBlank c)
    (hcs : ∀ d ∈ cs.head?, Text.isBlank d) : Cut position (c :: cs) (⟨position, [c]⟩ :: ws) := by
  have hsolid : ∀ d ∈ [c], ¬ Text.isBlank d := fun d hd => List.mem_singleton.1 hd ▸ hc
  refine .word (w := ⟨position, [c]⟩) (List.forall_mem_nil _) rfl (List.cons_ne_nil _ _)
    hsolid hcs ?_
  simpa using h

/-- A character that is not blank, at once before a word, makes this word longer. -/
theorem cons_longer (h : Cut (position + c.utf8Size) cs (w :: ws)) (hc : ¬ Text.isBlank c)
    (hw : w.index = position + c.utf8Size) :
    Cut position (c :: cs) (⟨position, c :: w.chars⟩ :: ws) := by
  cases h with
  | @word _ gap rest _ _ hgap hindex hne hsolid hrest hcut =>
    obtain rfl : gap = [] := byteCount_eq_zero.1 (by omega)
    refine .word (w := ⟨position, c :: w.chars⟩) (List.forall_mem_nil _) rfl (List.cons_ne_nil _ _)
      (List.forall_mem_cons.2 ⟨hc, hsolid⟩) hrest ?_
    simpa [hw, Nat.add_assoc] using hcut

/-- What comes at once before no word starts blank. -/
theorem head_blank (h : Cut position cs ws) (hw : ∀ w ∈ ws.head?, w.index ≠ position) :
    ∀ c ∈ cs.head?, Text.isBlank c := by
  intro c hc
  cases h with
  | gap hgap => exact hgap c (List.mem_of_mem_head? hc)
  | @word _ gap rest w ws hgap hindex hne hsolid hrest hcut =>
    cases gap with
    | nil => exact absurd hindex (hw w rfl)
    | cons d gap => exact hgap c (List.mem_of_mem_head? hc)

theorem le_index (h : Cut position cs ws) : ∀ w ∈ ws, position ≤ w.index := by
  induction h with
  | gap hgap => simp
  | word hgap hindex hne hsolid hrest hcut ih =>
    refine List.forall_mem_cons.2 ⟨by omega, fun w hw => ?_⟩
    have := ih w hw
    omega

/-- Behind what starts blank the next word is some way off. -/
theorem lt_index (h : Cut position cs ws) (hcs : ∀ c ∈ cs.head?, Text.isBlank c) :
    ∀ w ∈ ws, position < w.index := by
  intro w hw
  cases h with
  | gap hgap => simp at hw
  | @word _ gap rest v ws hgap hindex hne hsolid hrest hcut =>
    obtain ⟨d, chars, hd⟩ := List.exists_cons_of_ne_nil hne
    have hv : position < v.index := by
      cases gap with
      | nil => exact absurd (hcs d (by simp [hd])) (hsolid d (by simp [hd]))
      | cons c gap =>
        have := c.utf8Size_pos
        rw [hindex, byteCount_cons]
        omega
    rcases List.mem_cons.1 hw with rfl | hw
    · exact hv
    · have := hcut.le_index w hw
      omega

end Cut

/-- The words of a text are what it is cut into. -/
theorem cut_wordsFrom (position : Nat) (cs : List Char) :
    Cut position cs (wordsFrom position cs) := by
  induction cs generalizing position with
  | nil => exact .gap (List.forall_mem_nil _)
  | cons c cs ih =>
    have h := ih (position + c.utf8Size)
    rw [wordsFrom]
    split
    next hc => exact h.cons_blank hc
    next hc =>
      split
      next hws =>
        rw [hws] at h
        exact h.cons_single hc (h.head_blank (by simp))
      next w ws hws =>
        rw [hws] at h
        split
        next hw => exact h.cons_longer hc hw
        next hw => exact h.cons_single hc (h.head_blank (by simpa using hw))

/-! ### Tokens and gaps -/

/-- Where what stands behind a span begins. -/
def Span.behind (s : Span) : Nat := s.index + s.length

/-- Between two positions of a text there is white space only. -/
def BlankBetween (text : String) (i j : Nat) : Prop :=
  i ≤ j ∧ ∃ gap : List Char, AllBlank gap ∧
    text.toByteArray.extract i j = (String.ofList gap).toByteArray

/-- Where the gap behind some tokens begins, when `position` is where the first gap does. -/
def gapStart (position : Nat) (before : List Token) : Nat :=
  (before.getLast?.map (·.span.behind)).getD position

/-- Where the gap before some tokens ends: with the text if there are none. -/
def gapStop (text : String) (behind : List Token) : Nat :=
  (behind.head?.map (·.span.index)).getD text.utf8ByteSize

/-- The text of a token is a piece of the text without white space, where its span says. -/
structure Stands (text : String) (t : Token) : Prop where
  within : t.span.behind ≤ text.utf8ByteSize
  nonempty : t.text ≠ ""
  solid : ∀ c ∈ t.text.toList, ¬ Text.isBlank c
  bytes : text.toByteArray.extract t.span.index t.span.behind = t.text.toByteArray

/-- Tokens cover a text from a position on: each of them stands there, one starts some way behind
the other, and what is before, between and behind them is white space. -/
structure Covers (text : String) (position : Nat) (tokens : List Token) : Prop where
  stands : ∀ t ∈ tokens, Stands text t
  apart : tokens.Pairwise fun s t => s.span.behind < t.span.index
  gaps : ∀ before behind, tokens = before ++ behind →
    BlankBetween text (gapStart position before) (gapStop text behind)

namespace Covers

variable {text : String} {position : Nat} {t : Token} {ts : List Token}

theorem nil (h : BlankBetween text position text.utf8ByteSize) : Covers text position [] where
  stands := List.forall_mem_nil _
  apart := .nil
  gaps before behind heq := by
    obtain ⟨rfl, rfl⟩ := List.append_eq_nil_iff.1 heq.symm
    exact h

theorem cons (hgap : BlankBetween text position t.span.index) (ht : Stands text t)
    (hbehind : ∀ s ∈ ts, t.span.behind < s.span.index) (h : Covers text t.span.behind ts) :
    Covers text position (t :: ts) where
  stands := List.forall_mem_cons.2 ⟨ht, h.stands⟩
  apart := .cons hbehind h.apart
  gaps before behind heq := by
    cases before with
    | nil =>
      obtain rfl : t :: ts = behind := heq
      exact hgap
    | cons s before =>
      obtain ⟨rfl, hts⟩ := List.cons.inj heq
      have hstart : gapStart position (t :: before) = gapStart t.span.behind before := by
        rw [gapStart, gapStart, List.getLast?_cons]
        cases before.getLast? <;> rfl
      rw [hstart]
      exact h.gaps before behind hts

end Covers

/-- A gap is found behind what stands before it. -/
theorem blankBetween_gap {text : String} {before gap behind : List Char}
    (h : text.toList = before ++ (gap ++ behind)) (hgap : AllBlank gap) :
    BlankBetween text (byteCount before) (byteCount before + byteCount gap) :=
  ⟨Nat.le_add_right _ _, gap, hgap, extract_piece h⟩

/-- A word stands behind what comes before it. -/
theorem stands_word {text : String} {before behind : List Char} {w : Word} {t : Token}
    (h : text.toList = before ++ (w.chars ++ behind)) (hindex : w.index = byteCount before)
    (hne : w.chars ≠ []) (hsolid : ∀ c ∈ w.chars, ¬ Text.isBlank c)
    (hspan : t.span = ⟨w.index, byteCount w.chars⟩) (htext : t.text = String.ofList w.chars) :
    Stands text t where
  within := by
    have hsize : text.utf8ByteSize = byteCount before + (byteCount w.chars + byteCount behind) := by
      rw [← byteCount_toList, h, byteCount_append, byteCount_append]
    have hbehind : t.span.behind = byteCount before + byteCount w.chars := by
      rw [hspan, Span.behind, hindex]
    omega
  nonempty := by rwa [htext, Ne, String.ofList_eq_empty_iff]
  solid := by rwa [htext, String.toList_ofList]
  bytes := by rw [hspan, htext, Span.behind, hindex, extract_piece h]

/-- The tokens of the words that the rest of a text is cut into cover this rest. -/
theorem Cut.covers {text : String} {position : Nat} {cs : List Char} {ws : List Word}
    {token : Word → Token} (h : Cut position cs ws) (before : List Char)
    (htext : text.toList = before ++ cs) (hposition : position = byteCount before)
    (hspan : ∀ w, (token w).span = ⟨w.index, byteCount w.chars⟩)
    (hchars : ∀ w, (token w).text = String.ofList w.chars) :
    Covers text position (ws.map token) := by
  induction h generalizing before with
  | @gap position gap hgap =>
    have hsize : text.utf8ByteSize = byteCount before + byteCount gap := by
      rw [← byteCount_toList, htext, byteCount_append]
    refine Covers.nil ?_
    rw [hposition, hsize]
    exact blankBetween_gap (by rw [htext, List.append_nil]) hgap
  | @word position gap rest w ws hgap hindex hne hsolid hrest hcut ih =>
    have hstart : w.index = byteCount (before ++ gap) := by
      rw [hindex, hposition, byteCount_append]
    have htext' : text.toList = (before ++ gap) ++ (w.chars ++ rest) := by
      rw [htext, List.append_assoc]
    have hbehind : (token w).span.behind = w.index + byteCount w.chars := by
      rw [hspan, Span.behind]
    refine Covers.cons ?_ (stands_word htext' hstart hne hsolid (hspan w) (hchars w)) ?_ ?_
    · rw [hspan, hindex, hposition]
      exact blankBetween_gap htext hgap
    · intro t ht
      obtain ⟨v, hv, rfl⟩ := List.mem_map.1 ht
      rw [hbehind, hspan]
      exact hcut.lt_index hrest v hv
    · rw [hbehind]
      refine ih ((before ++ gap) ++ w.chars) ?_ ?_
      · rw [htext', ← List.append_assoc]
      · rw [hstart, byteCount_append (before ++ gap)]

/-- A word has a token if what it is classified as is found. -/
theorem Word.token_of_found {g : Grammar} {classify : String → String} {w : Word}
    {symbol : SymbolId} (h : g.find? (classify (String.ofList w.chars)) = some symbol) :
    w.token g classify =
      .ok ⟨symbol, String.ofList w.chars, ⟨w.index, byteCount w.chars⟩, none⟩ := by
  rw [Word.token, h]
  rfl

/-- If what words are classified as is always found, each text has tokens. They cover it, and each of
them has the symbol that is found for its text. -/
theorem lex_covers {g : Grammar} {classify : String → String}
    (hfound : ∀ word, (g.find? (classify word)).isSome) (text : String) :
    ∃ tokens, lex g classify text = .ok tokens ∧ Covers text 0 tokens ∧
      ∀ t ∈ tokens, g.find? (classify t.text) = some t.symbol := by
  let symbol (word : String) : SymbolId := (g.find? (classify word)).get (hfound word)
  have hsymbol (word : String) : g.find? (classify word) = some (symbol word) :=
    (Option.some_get _).symm
  let token (w : Word) : Token :=
    ⟨symbol (String.ofList w.chars), String.ofList w.chars, ⟨w.index, byteCount w.chars⟩, none⟩
  have htoken : (fun w : Word => w.token g classify) = fun w => Except.ok (token w) :=
    funext fun w => Word.token_of_found (hsymbol _)
  refine ⟨(words text).map token, ?_, ?_, fun t ht => ?_⟩
  · rw [lex, htoken]
    exact List.mapM_pure
  · exact (cut_wordsFrom 0 text.toList).covers [] rfl rfl (fun _ => rfl) fun _ => rfl
  · obtain ⟨w, -, rfl⟩ := List.mem_map.1 ht
    exact hsymbol _

namespace Samples

/-- The terminals that words of an arithmetic expression are classified as. -/
def arithmeticNames : List String := ["plus", "minus", "star", "slash", "lparen", "rparen", "num"]

theorem arithmeticWord_mem (word : String) : arithmeticWord word ∈ arithmeticNames := by
  unfold arithmeticWord
  split <;> simp [arithmeticNames]

/-- White space of three bytes, a word of two, an operator, a number and a space of two bytes. -/
def spacedSum : String := "\u3000é + 1\u00a0"

/-- The three words are covered, with their places counted in bytes. -/
theorem spacedSum_lex_covers : ∃ g tokens, Grammar.define arithmetic = .ok g ∧
    (∀ word, (g.find? (arithmeticWord word)).isSome) ∧
    lex g arithmeticWord spacedSum = .ok tokens ∧ Covers spacedSum 0 tokens ∧
    (∀ t ∈ tokens, g.find? (arithmeticWord t.text) = some t.symbol) ∧
    tokens.map (·.span) = [⟨3, 2⟩, ⟨6, 1⟩, ⟨8, 1⟩] := by
  have hrun : ((Grammar.define arithmetic).toOption.bind fun g =>
      (lex g arithmeticWord spacedSum).toOption.map fun tokens =>
        (arithmeticNames.all fun name => (g.find? name).isSome, tokens.map (·.span))) =
      some (true, [⟨3, 2⟩, ⟨6, 1⟩, ⟨8, 1⟩]) := by decide +kernel
  obtain ⟨g, hg, hrun⟩ := Option.bind_eq_some_iff.1 hrun
  obtain ⟨tokens, htokens, hrun⟩ := Option.map_eq_some_iff.1 hrun
  obtain ⟨hnames, hspans⟩ := Prod.mk.inj hrun
  have hlex := toOption_eq_some.1 htokens
  have hfound (word : String) : (g.find? (arithmeticWord word)).isSome :=
    List.all_eq_true.1 hnames _ (arithmeticWord_mem word)
  obtain ⟨tokens', hlex', hcovers, hsymbols⟩ := lex_covers hfound spacedSum
  obtain rfl : tokens = tokens' := Except.ok.inj (hlex.symm.trans hlex')
  exact ⟨g, tokens, toOption_eq_some.1 hg, hfound, hlex, hcovers, hsymbols, hspans⟩

end Samples

end BottomUp
