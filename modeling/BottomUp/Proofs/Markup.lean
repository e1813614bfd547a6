/-
# Reading XML back

The XML of a tree is cut where a `<` stands, which neither a name nor an escaped text contains.
Each piece is a tag. A name goes as far as there are characters of names; what comes between it and
the end of a start tag is cut at the quotes, and behind the end stands the text of the node. From
the last tag to the first, an end tag opens a list of elements that its start tag then takes for its
children. What comes out is the tree that was written, with the names as they were written and the
values and texts as they were given.

Key definitions: `Xml.Element`, `Xml.Tag`, `Xml.IsName`, `Xml.unescape`, `Xml.readTags`,
`Xml.assemble`, `Xml.read`, `RawTree.element`.
Key theorems: `Xml.unescape_escape`, `Xml.isName_name`, `Xml.readTag_piece`, `Xml.readTags_written`,
`Xml.assemble_tags`, `Tree.toList_foldl_xmlStep`, `Tree.Made.read_xml`.
-/
import Mathlib.Data.List.TakeWhile
import BottomUp.Proofs.Makings
import BottomUp.Proofs.Tours
import BottomUp.Tree.Xml

namespace BottomUp

namespace Xml

/-- An element with its attributes in order, the text behind its start tag, and the elements in
it. -/
inductive Element where
  | node (name : String) (attributes : List (String × String)) (text : String)
      (children : List Element)

/-- A tag, a start tag with the text behind it. -/
inductive Tag where
  | opening (name : String) (attributes : List (String × String)) (text : String)
  | closing (name : String)

/-! ### Characters -/

/-- The text or value that is written in this way. -/
def unescape : List Char → List Char
  | '&' :: 'a' :: 'm' :: 'p' :: ';' :: cs => '&' :: unescape cs
  | '&' :: 'l' :: 't' :: ';' :: cs => '<' :: unescape cs
  | '&' :: 'g' :: 't' :: ';' :: cs => '>' :: unescape cs
  | '&' :: 'q' :: 'u' :: 'o' :: 't' :: ';' :: cs => '"' :: unescape cs
  | '&' :: 'a' :: 'p' :: 'o' :: 's' :: ';' :: cs => '\'' :: unescape cs
  | c :: cs => c :: unescape cs
  | [] => []

theorem unescape_cons {c : Char} (hc : c ≠ '&') (cs : List Char) :
    unescape (c :: cs) = c :: unescape cs := by
  conv_lhs => unfold unescape
  split <;> simp_all

theorem toList_escape (text : String) :
    (escape text).toList = text.toList.flatMap fun c => (escapeChar c).toList := by
  simp [escape, String.toList_join, List.flatMap_map]

theorem unescape_escapeChar (c : Char) (cs : List Char) :
    unescape ((escapeChar c).toList ++ cs) = c :: unescape cs := by
  unfold escapeChar
  split
  case h_6 hamp _ _ _ _ =>
    rw [Char.toString_eq_singleton, String.toList_singleton]
    exact unescape_cons hamp cs
  all_goals rfl

/-- No character is written with one that cuts. -/
theorem not_mem_escapeChar {c : Char} (hc : c = '<' ∨ c = '"') (d : Char) :
    c ∉ (escapeChar d).toList := by
  unfold escapeChar
  split
  case h_6 _ hlt _ hquote _ =>
    rw [Char.toString_eq_singleton, String.toList_singleton, List.mem_singleton]
    rintro rfl
    exact hc.elim hlt hquote
  all_goals rcases hc with rfl | rfl <;> decide

/-- What was escaped is given back as it was. -/
theorem unescape_escape (text : String) :
    String.ofList (unescape (escape text).toList) = text := by
  have hall : ∀ cs : List Char, unescape (cs.flatMap fun c => (escapeChar c).toList) = cs := by
    intro cs
    induction cs with
    | nil => rfl
    | cons c cs ih => rw [List.flatMap_cons, unescape_escapeChar, ih]
  rw [toList_escape, hall, String.ofList_toList]

/-- No escaped text contains a character that cuts. -/
theorem not_mem_escape {c : Char} (hc : c = '<' ∨ c = '"') (text : String) :
    c ∉ (escape text).toList := by
  rw [toList_escape]
  intro hmem
  obtain ⟨d, -, hd⟩ := List.mem_flatMap.1 hmem
  exact not_mem_escapeChar hc d hd

/-- Whether a text is made of characters of names. -/
def Named (text : String) : Prop := ∀ c ∈ text.toList, isNamePart c

/-- The characters that stand behind names and cut pieces are no characters of names. -/
theorem isNamePart_delimiter : ∀ c ∈ [' ', '"', '/', '<', '=', '>'], isNamePart c = false := by
  have hall : [' ', '"', '/', '<', '=', '>'].all (!isNamePart ·) := by decide
  simpa using hall

theorem isAlphanumeric_of_isAlphabetic {c : Char} (h : Text.isAlphabetic c) :
    Text.isAlphanumeric c := by
  unfold Text.isAlphabetic at h
  unfold Text.isAlphanumeric
  split at h
  · next hascii => simp [hascii, Char.isAlphanum, h]
  · next hascii => simp [hascii, h]

theorem isNamePart_of_isNameStart {c : Char} (h : isNameStart c) : isNamePart c := by
  unfold isNameStart at h
  unfold isNamePart
  rcases Bool.or_eq_true_iff.1 h with halpha | hunder
  · simp [isAlphanumeric_of_isAlphabetic halpha]
  · simp [hunder]

/-- Whether a text is a name: it starts as a name may, and goes on so. -/
def IsName (text : String) : Prop :=
  ∃ c cs, text.toList = c :: cs ∧ isNameStart c ∧ ∀ d ∈ cs, isNamePart d

theorem IsName.named {text : String} (h : IsName text) : Named text := by
  obtain ⟨c, cs, htext, hc, hcs⟩ := h
  intro d hd
  rw [htext] at hd
  rcases List.mem_cons.1 hd with rfl | hd
  · exact isNamePart_of_isNameStart hc
  · exact hcs d hd

/-- What a name starts with may start a name. -/
theorem nameStart_eq_cons (c : Char) :
    ∃ d ds, nameStart c = d :: ds ∧ isNameStart d ∧ ∀ d' ∈ ds, isNamePart d' := by
  have hunder : isNameStart '_' := by decide
  unfold nameStart
  split
  · next hstart => exact ⟨c, [], rfl, hstart, by simp⟩
  · split
    · next hnumber => exact ⟨'_', [c], rfl, hunder, by simp [isNamePart, hnumber]⟩
    · exact ⟨'_', [], rfl, hunder, by simp⟩

/-- What stands for a text is a name. -/
theorem isName_name (text : String) : IsName (name text) := by
  unfold name
  split
  · exact ⟨'_', [], by simp, by decide, by simp⟩
  · next c cs _ =>
    obtain ⟨d, ds, hstart, hd, hds⟩ := nameStart_eq_cons c
    refine ⟨d, ds ++ cs.map fun c => if isNamePart c then c else '_', ?_, hd, fun d' hd' => ?_⟩
    · rw [String.toList_ofList, hstart, List.cons_append]
    · rcases List.mem_append.1 hd' with hd' | hd'
      · exact hds d' hd'
      · obtain ⟨c', -, rfl⟩ := List.mem_map.1 hd'
        split
        · assumption
        · decide

/-- A name stands for itself, and nothing else does. -/
theorem name_eq_self_iff {text : String} : name text = text ↔ IsName text := by
  refine ⟨fun h => h ▸ isName_name text, ?_⟩
  rintro ⟨c, cs, htext, hc, hcs⟩
  have hkeep : (cs.map fun c => if isNamePart c then c else '_') = cs :=
    (List.map_congr_left fun d hd => if_pos (hcs d hd)).trans (List.map_id cs)
  rw [name, htext]
  simp only [nameStart, if_pos hc, hkeep, List.singleton_append]
  rw [← htext, String.ofList_toList]

namespace Named

variable {name : String} {c : Char} {cs : List Char}

theorem not_mem (h : Named name) (hc : isNamePart c = false) : c ∉ name.toList := fun hmem =>
  absurd (h c hmem) (by simp [hc])

/-- A name goes as far as there are characters of names. -/
theorem takeWhile_append (h : Named name) (hc : isNamePart c = false) :
    (name.toList ++ c :: cs).takeWhile isNamePart = name.toList := by
  rw [List.takeWhile_append_of_pos h, List.takeWhile_cons_of_neg (by simp [hc]), List.append_nil]

theorem dropWhile_append (h : Named name) (hc : isNamePart c = false) :
    (name.toList ++ c :: cs).dropWhile isNamePart = c :: cs := by
  rw [List.dropWhile_append_of_pos h, List.dropWhile_cons_of_neg (by simp [hc])]

end Named

/-! ### Tags -/

/-- How an attribute is written. -/
def writeAttribute (a : String × String) : List Char :=
  ' ' :: (a.1.toList ++ '=' :: '"' :: ((escape a.2).toList ++ ['"']))

/-- What stands between the `<` of a tag and the next one. -/
def Tag.piece : Tag → List Char
  | .opening name attributes text =>
    name.toList ++ (attributes.flatMap writeAttribute ++ '>' :: (escape text).toList)
  | .closing name => '/' :: (name.toList ++ ['>'])

/-- The names in a tag are made of characters of names. -/
def Tag.Named : Tag → Prop
  | .opening name attributes _ => Xml.Named name ∧ ∀ a ∈ attributes, Xml.Named a.1
  | .closing name => Xml.Named name

/-- The name that stands before these characters. -/
def readName (behind cs : List Char) : Option String :=
  if cs.dropWhile isNamePart = behind then some (.ofList (cs.takeWhile isNamePart)) else none

/-- The key of an attribute, from what stands before its value. -/
def readKey : List Char → Option String
  | ' ' :: cs => readName ['='] cs
  | _ => none

/-- The attributes of a start tag that was cut at the quotes, and the text behind the tag. -/
def readAttributes : List (List Char) → Option (List (String × String) × String)
  | [] => none
  | ['>' :: text] => some ([], .ofList (unescape text))
  | [_] => none
  | key :: value :: pieces => do
    let key ← readKey key
    let (attributes, text) ← readAttributes pieces
    some ((key, .ofList (unescape value)) :: attributes, text)

/-- The tag that a piece was written for. -/
def readTag : List Char → Option Tag
  | '/' :: cs => (readName ['>'] cs).map Tag.closing
  | cs => (readAttributes ((cs.dropWhile isNamePart).splitOn '"')).map fun (attributes, text) =>
    Tag.opening (.ofList (cs.takeWhile isNamePart)) attributes text

theorem readName_append {name : String} (h : Named name) {c : Char} (hc : isNamePart c = false)
    (cs : List Char) : readName (c :: cs) (name.toList ++ c :: cs) = some name := by
  rw [readName, h.dropWhile_append hc, if_pos rfl, h.takeWhile_append hc, String.ofList_toList]

theorem splitOn_of_not_mem {c : Char} {cs : List Char} (h : c ∉ cs) : cs.splitOn c = [cs] :=
  List.splitOnP_eq_singleton fun d hd => by
    rw [beq_eq_false_iff_ne]
    rintro rfl
    exact h hd

theorem splitOn_append_cons {c : Char} {cs : List Char} (h : c ∉ cs) (rest : List Char) :
    (cs ++ c :: rest).splitOn c = cs :: rest.splitOn c := by
  have hcut := List.splitOnP_append_cons (p := (· == c)) cs rest (beq_self_eq_true c)
  rw [← List.splitOn, ← List.splitOn, ← List.splitOn, splitOn_of_not_mem h] at hcut
  exact hcut

/-- The attributes of a start tag and the text behind it are read as they were given. -/
theorem readAttributes_written (text : String) : ∀ {attributes : List (String × String)},
    (∀ a ∈ attributes, Named a.1) → readAttributes
      ((attributes.flatMap writeAttribute ++ '>' :: (escape text).toList).splitOn '"') =
        some (attributes, text)
  | [], _ => by
    have hcut : '"' ∉ '>' :: (escape text).toList := by
      simp [not_mem_escape]
    rw [List.flatMap_nil, List.nil_append, splitOn_of_not_mem hcut, readAttributes, unescape_escape]
  | (key, value) :: attributes, h => by
    have hkey : Named key := h _ List.mem_cons_self
    have hcut : '"' ∉ ' ' :: (key.toList ++ ['=']) := by
      simp [hkey.not_mem (isNamePart_delimiter '"' (by decide))]
    -- the first quote ends what stands before the value, the second one the value
    have hparts : ∀ rest, writeAttribute (key, value) ++ rest =
        (' ' :: (key.toList ++ ['='])) ++ '"' :: ((escape value).toList ++ '"' :: rest) := by
      simp [writeAttribute]
    have hreadKey : readKey (' ' :: (key.toList ++ ['='])) = some key :=
      readName_append hkey (isNamePart_delimiter '=' (by decide)) []
    rw [List.flatMap_cons, List.append_assoc, hparts, splitOn_append_cons hcut,
      splitOn_append_cons (not_mem_escape (.inr rfl) value), readAttributes, hreadKey,
      readAttributes_written text fun a ha => h a (List.mem_cons_of_mem _ ha), unescape_escape]
    rfl

/-- Behind the name of a start tag stands a space or the end of the tag. -/
theorem exists_behind (attributes : List (String × String)) (cs : List Char) :
    ∃ c ∈ [' ', '>'], ∃ rest, attributes.flatMap writeAttribute ++ '>' :: cs = c :: rest := by
  cases attributes with
  | nil => exact ⟨'>', by simp, cs, rfl⟩
  | cons a attributes => exact ⟨' ', by simp, _, rfl⟩

/-- The piece that is written for a tag is read as the tag. -/
theorem readTag_piece {tag : Tag} (h : tag.Named) : readTag tag.piece = some tag := by
  cases tag with
  | closing name =>
    rw [Tag.piece, readTag, readName_append h (isNamePart_delimiter '>' (by decide))]
    rfl
  | opening name attributes text =>
    obtain ⟨hname, hkeys⟩ := h
    obtain ⟨c, hmem, rest, hbehind⟩ := exists_behind attributes (escape text).toList
    have hc : isNamePart c = false ∧ c ≠ '/' := by
      rcases List.mem_pair.1 hmem with rfl | rfl <;> decide
    have hstart : ∀ cs, name.toList ++ c :: rest ≠ '/' :: cs := by
      intro cs heq
      cases hchars : name.toList with
      | nil =>
        rw [hchars] at heq
        exact hc.2 (List.cons.inj heq).1
      | cons d ds =>
        rw [hchars] at heq
        have hslash : '/' ∈ name.toList := hchars ▸ (List.cons.inj heq).1 ▸ List.mem_cons_self
        exact hname.not_mem (isNamePart_delimiter '/' (by decide)) hslash
    have hread := readAttributes_written text hkeys
    rw [hbehind] at hread
    rw [Tag.piece, hbehind, readTag]
    · rw [hname.dropWhile_append hc.1, hname.takeWhile_append hc.1, hread, String.ofList_toList]
      rfl
    · exact hstart

theorem not_mem_piece {tag : Tag} (h : tag.Named) : '<' ∉ tag.piece := by
  have hlt : isNamePart '<' = false := isNamePart_delimiter '<' (by decide)
  cases tag with
  | closing name => simp [Tag.piece, Named.not_mem h hlt]
  | opening name attributes text =>
    have hattribute : ∀ a ∈ attributes, '<' ∉ writeAttribute a := fun a ha => by
      simp [writeAttribute, (h.2 a ha).not_mem hlt, not_mem_escape]
    have hall : '<' ∉ attributes.flatMap writeAttribute := fun hmem => by
      obtain ⟨a, ha, hmem⟩ := List.mem_flatMap.1 hmem
      exact hattribute a ha hmem
    simp [Tag.piece, h.1.not_mem hlt, hall, not_mem_escape]

/-- How tags are written. -/
def write (tags : List Tag) : List Char := tags.flatMap fun tag => '<' :: tag.piece

@[simp] theorem write_append (tags others : List Tag) :
    write (tags ++ others) = write tags ++ write others := List.flatMap_append

/-- What is written is cut into the pieces. -/
theorem splitOn_write {tags : List Tag} (h : ∀ tag ∈ tags, tag.Named) {cs : List Char}
    (hcs : '<' ∉ cs) : (cs ++ write tags).splitOn '<' = cs :: tags.map Tag.piece := by
  induction tags generalizing cs with
  | nil => rw [write, List.flatMap_nil, List.append_nil, splitOn_of_not_mem hcs, List.map_nil]
  | cons tag tags ih =>
    rw [write, List.flatMap_cons, List.cons_append, splitOn_append_cons hcs, ← write,
      ih (fun tag' htag' => h tag' (List.mem_cons_of_mem _ htag'))
        (not_mem_piece (h tag List.mem_cons_self)), List.map_cons]

/-- The tags that a text consists of. -/
def readTags (text : String) : Option (List Tag) :=
  match text.toList.splitOn '<' with
  | [] :: pieces => pieces.mapM readTag
  | _ => none

/-- The tags that are written are read. -/
theorem readTags_written {tags : List Tag} (h : ∀ tag ∈ tags, tag.Named) {text : String}
    (htext : text.toList = write tags) : readTags text = some tags := by
  have hcut : (write tags).splitOn '<' = [] :: tags.map Tag.piece :=
    splitOn_write h List.not_mem_nil
  simp only [readTags, htext, hcut]
  clear hcut htext
  induction tags with
  | nil => rfl
  | cons tag tags ih =>
    rw [List.map_cons, List.mapM_cons, readTag_piece (h tag List.mem_cons_self),
      ih fun tag' htag' => h tag' (List.mem_cons_of_mem _ htag')]
    rfl

/-! ### Elements -/

/-- The elements that the tags start with, and for each end tag that is left without a start tag its
name and the elements behind it. -/
def assemble : List Tag → Option (List Element × List (String × List Element))
  | [] => some ([], [])
  | .closing name :: tags => do
    let (elements, outer) ← assemble tags
    some ([], (name, elements) :: outer)
  | .opening name attributes text :: tags => do
    match ← assemble tags with
    | (_, []) => none
    | (children, (last, elements) :: outer) =>
      if last = name then some (.node name attributes text children :: elements, outer) else none

/-- The element that a text is the XML of. -/
def read (text : String) : Option Element := do
  match ← assemble (← readTags text) with
  | ([e], []) => some e
  | _ => none

mutual

/-- The tags of an element, in the order in which they are written. -/
def Element.tags : Element → List Tag
  | .node name attributes text children =>
    .opening name attributes text :: (Element.tagsAll children ++ [.closing name])

/-- The tags of some elements, one after the other. -/
def Element.tagsAll : List Element → List Tag
  | [] => []
  | e :: es => e.tags ++ Element.tagsAll es

end

mutual

/-- The tags of an element are put together to the element. -/
theorem assemble_tags (e : Element) {tags : List Tag} {elements : List Element}
    {outer : List (String × List Element)} (h : assemble tags = some (elements, outer)) :
    assemble (e.tags ++ tags) = some (e :: elements, outer) := by
  match e with
  | .node name attributes text children =>
    have hclosing : assemble (.closing name :: tags) = some ([], (name, elements) :: outer) := by
      rw [assemble, h]
      rfl
    have hchildren := assemble_tagsAll children hclosing
    rw [List.append_nil] at hchildren
    rw [Element.tags, List.cons_append, List.append_assoc, List.singleton_append, assemble,
      hchildren]
    simp

theorem assemble_tagsAll (es : List Element) {tags : List Tag} {elements : List Element}
    {outer : List (String × List Element)} (h : assemble tags = some (elements, outer)) :
    assemble (Element.tagsAll es ++ tags) = some (es ++ elements, outer) := by
  match es with
  | [] => exact h
  | e :: es =>
    rw [Element.tagsAll, List.append_assoc]
    exact assemble_tags e (assemble_tagsAll es h)

end

/-- An element is read from its tags. -/
theorem read_of_readTags {text : String} {e : Element} (h : readTags text = some e.tags) :
    read text = some e := by
  have hassemble : assemble e.tags = some ([e], []) :=
    List.append_nil e.tags ▸ assemble_tags e rfl
  simp [read, h, hassemble]

/-! ### Trees -/

/-- The attribute of a property. -/
def ofProperty (p : String × Value) : String × String := (name p.1, p.2.text)

/-- The start tag of a node, and the text behind it. -/
def startTag (n : Node) : Tag :=
  .opening (name n.symbol.name) (n.properties.map ofProperty) (n.text.getD "")

/-- The end tag of a node. -/
def endTag (n : Node) : Tag := .closing (name n.symbol.name)

theorem toList_opening (n : Node) : (opening n).toList = write [startTag n] := by
  simp [opening, startTag, write, Tag.piece, String.toList_join, List.flatMap_map, ofProperty,
    writeAttribute]

theorem toList_closing (n : Node) : (closing n).toList = write [endTag n] := by
  simp [closing, endTag, write, Tag.piece]

theorem named_startTag (n : Node) : (startTag n).Named := by
  refine ⟨(isName_name _).named, fun a ha => ?_⟩
  obtain ⟨p, -, rfl⟩ := List.mem_map.1 ha
  exact (isName_name _).named

theorem named_endTag (n : Node) : (endTag n).Named := (isName_name _).named

end Xml

namespace RawTree

mutual

/-- The element that a tree is written as: names are turned into such as XML allows, and a text that
is missing is empty. -/
def element : RawTree → Xml.Element
  | node content children => .node (Xml.name content.symbol.name)
      (content.properties.map Xml.ofProperty) (content.text.getD "") (elementAll children)

/-- The elements that some trees are written as. -/
def elementAll : List RawTree → List Xml.Element
  | [] => []
  | tree :: trees => tree.element :: elementAll trees

end

end RawTree

namespace Tree

/-- The tag that a visit writes. -/
def tag? (t : Tree) : Visit → Option Xml.Tag
  | .enter id => (t.node? id).map Xml.startTag
  | .leave id => (t.node? id).map Xml.endTag

variable {t : Tree}

theorem named_of_tag? {visit : Visit} {tag : Xml.Tag} (h : t.tag? visit = some tag) :
    tag.Named := by
  cases visit with
  | enter id =>
    obtain ⟨n, -, rfl⟩ := Option.map_eq_some_iff.1 h
    exact Xml.named_startTag n
  | leave id =>
    obtain ⟨n, -, rfl⟩ := Option.map_eq_some_iff.1 h
    exact Xml.named_endTag n

/-- What visits write is their tags. -/
theorem toList_foldl_xmlStep (visits : List Visit) (out : String) :
    (visits.foldl t.xmlStep out).toList = out.toList ++ Xml.write (visits.filterMap t.tag?) := by
  have hstep : ∀ (visit : Visit) (out : String),
      (t.xmlStep out visit).toList = out.toList ++ Xml.write (t.tag? visit).toList := by
    intro visit out
    cases visit with
    | enter id => cases hn : t.node? id <;> simp [xmlStep, tag?, hn, Xml.toList_opening, Xml.write]
    | leave id => cases hn : t.node? id <;> simp [xmlStep, tag?, hn, Xml.toList_closing, Xml.write]
  induction visits generalizing out with
  | nil => simp [Xml.write]
  | cons visit visits ih =>
    rw [List.foldl_cons, ih, hstep, List.append_assoc, ← Xml.write_append]
    cases htag : t.tag? visit <;> simp [htag]

mutual

/-- The tags of a tour are those of the element that is read there. -/
theorem Tours.filterMap_tag? {id : NodeId} {visits : List Visit} (h : t.Tours id visits)
    {parent : Option NodeId} {tree : RawTree} (hreads : t.Reads parent tree id) :
    visits.filterMap t.tag? = tree.element.tags := by
  match h, hreads with
  | .node hall, @Reads.node _ _ _ n children hn _ hbelow =>
    rw [children_eq hn] at hall
    simp only [List.filterMap_cons, List.filterMap_append, List.filterMap_nil, tag?, hn,
      Option.map_some, hall.filterMap_tag? hbelow]
    rfl

theorem ToursAll.filterMap_tag? {ids : List NodeId} {visits : List Visit}
    (h : t.ToursAll ids visits) {parent : NodeId} {trees : List RawTree}
    (hreads : t.ReadsAll parent trees ids) :
    visits.filterMap t.tag? = Xml.Element.tagsAll (RawTree.elementAll trees) := by
  match h, hreads with
  | .nil, .nil => rfl
  | .cons hhead htail, .cons hfirst hothers =>
    rw [List.filterMap_append, hhead.filterMap_tag? hfirst, htail.filterMap_tag? hothers,
      RawTree.elementAll, Xml.Element.tagsAll]

end

/-- The XML of a tree whose walk ends is cut into the tags of the walk. -/
theorem Founded.readTags_xml (ht : t.Founded) {visits : List Visit} (h : t.Tours t.root visits) :
    ∃ text, t.xml? = some text ∧ Xml.readTags text = some (visits.filterMap t.tag?) := by
  refine ⟨visits.foldl t.xmlStep "", ?_, Xml.readTags_written (fun tag htag => ?_) ?_⟩
  · rw [xml?, h.walk?_eq ht.linked ht.root_lt, Option.map_some]
  · obtain ⟨visit, -, hvisit⟩ := List.mem_filterMap.1 htag
    exact named_of_tag? hvisit
  · exact toList_foldl_xmlStep visits ""

/-- The XML of a tree whose walk ends is read as the element of the tree that hangs on its root. -/
theorem Founded.exists_read (ht : t.Founded) {visits : List Visit} (h : t.Tours t.root visits) :
    ∃ tree text, t.Reads (t.parent? t.root) tree t.root ∧ t.xml? = some text ∧
      Xml.read text = some tree.element := by
  obtain ⟨tree, hreads, -⟩ := h.exists_readsAt ht.linked ht.root_lt
  obtain ⟨text, hxml, htags⟩ := ht.readTags_xml h
  rw [h.filterMap_tag? hreads.reads] at htags
  exact ⟨tree, text, hreads.reads, hxml, Xml.read_of_readTags htags⟩

/-- Every tree that goes down to an end has XML, and what is read from it is the tree: the names as
they are written, and the values and texts as they are. So trees with the same XML agree in these
names, values and texts and in their shape. -/
theorem Made.read_xml (h : t.Made) (hends : Acc t.ChildOf t.root) :
    ∃ tree text, t.Reads (t.parent? t.root) tree t.root ∧ t.xml? = some text ∧
      Xml.read text = some tree.element ∧
      ∀ t' : Tree, t'.Made → t'.xml? = some text →
        ∃ tree', t'.Reads (t'.parent? t'.root) tree' t'.root ∧ tree'.element = tree.element := by
  obtain ⟨visits, htours⟩ := exists_tours hends
  obtain ⟨tree, text, hreads, hxml, hread⟩ := h.founded.exists_read htours
  refine ⟨tree, text, hreads, hxml, hread, fun t' h' hxml' => ?_⟩
  obtain ⟨visits', hwalk', -⟩ := Option.map_eq_some_iff.1 hxml'
  obtain ⟨tree', text', hreads', htext', hread'⟩ :=
    h'.founded.exists_read (walked_iff.1 ⟨_, hwalk'⟩)
  obtain rfl : text' = text := Option.some.inj (htext'.symm.trans hxml')
  exact ⟨tree', hreads', Option.some.inj (hread'.symm.trans hread)⟩

end Tree

namespace Samples

/-- A root with a property, and a token below it, with characters of markup in their texts. -/
def marked : Tree :=
  let t := (Tree.single ⟨2, "S T", .nonterminal⟩ .keep).setProperty 0 "k" (.str "a\"b&lt;")
  (t.addToken ⟨3, "t", .terminal⟩ ⟨3, "1<2", ⟨0, 3⟩, none⟩ .keep).2.appendChild 0 1

/-- The element that it is written as. -/
def markedElement : Xml.Element :=
  .node "S_T" [("k", "a\"b&lt;")] "" [.node "t" [] "1<2" []]

/-- Characters of markup in values and texts come back, and so does what looks like an entity. -/
theorem marked_read_xml : marked.Made ∧ Acc marked.ChildOf marked.root ∧
    marked.xml? = some "<S_T k=\"a&quot;b&amp;lt;\"><t>1&lt;2</t></S_T>" ∧
    Xml.read "<S_T k=\"a&quot;b&amp;lt;\"><t>1&lt;2</t></S_T>" = some markedElement := by
  have hset := Tree.Made.edited_plain (.single ⟨2, "S T", .nonterminal⟩ .keep)
    (e := .setProperty 0 "k" (.str "a\"b&lt;")) rfl rfl
  have hadded := hset.edited_plain
    (e := .addToken ⟨3, "t", .terminal⟩ ⟨3, "1<2", ⟨0, 3⟩, none⟩ .keep) rfl rfl
  have hmade : marked.Made := hadded.edited_plain (e := .appendChild 0 1) rfl rfl
  have hends : Acc marked.ChildOf marked.root := by
    refine .intro _ fun c hc => ?_
    obtain rfl : c = 1 := List.mem_singleton.1 hc
    exact .intro _ fun c hc => absurd hc List.not_mem_nil
  obtain ⟨tree, text, hreads, hxml, hread, -⟩ := Tree.Made.read_xml hmade hends
  obtain rfl := hreads.unique (.node rfl rfl (.cons (.node rfl rfl .nil) .nil))
  have htext : marked.xml? = some "<S_T k=\"a&quot;b&amp;lt;\"><t>1&lt;2</t></S_T>" := by
    decide +kernel
  obtain rfl := Option.some.inj (hxml.symm.trans htext)
  exact ⟨hmade, hends, htext, hread⟩

end Samples

end BottomUp
