/-
# The attributes of a start tag

A node holds each property under a key of its own, and its attributes are named for the keys. But
two keys may have the same name: each key that is no name itself shares its name with that name,
taken as a key. So the attributes of a start tag differ if and only if no two keys of the node have
the same name, and they do if the keys are names.

Key definition: `Xml.Tag.keys`.
Key theorems: `Xml.exists_same_name`, `Xml.nodup_keys_startTag`, `Tree.Made.start_tags`.
-/
import BottomUp.Proofs.Keys
import BottomUp.Proofs.Markup

namespace BottomUp

namespace Xml

/-- The names of the attributes in a tag. -/
def Tag.keys : Tag → List String
  | .opening _ attributes _ => attributes.map (·.1)
  | .closing _ => []

/-- The attributes of a node are named for its keys. -/
theorem keys_startTag (n : Node) : (startTag n).keys = n.keys.map name := by
  simp only [startTag, Tag.keys, Node.keys, List.map_map]
  rfl

/-- A key that is no name shares its name with another key. -/
theorem exists_same_name {key : String} (h : ¬ IsName key) :
    ∃ key', key' ≠ key ∧ name key' = name key :=
  ⟨name key, fun heq => h (name_eq_self_iff.1 heq), name_eq_self_iff.2 (isName_name key)⟩

/-- The attributes of a node are named differently if and only if no two of its keys have the same
name. -/
theorem nodup_keys_startTag {n : Node} (hn : n.keys.Nodup) : (startTag n).keys.Nodup ↔
    ∀ key ∈ n.keys, ∀ key' ∈ n.keys, name key = name key' → key = key' := by
  rw [keys_startTag, List.nodup_map_iff_inj_on hn]

end Xml

namespace Tree

variable {t : Tree}

/-- Each node that hangs on the root has its start tag among the tags of the XML, with an attribute
for each of its keys in order. Their names differ if and only if no two keys have the same name,
which is so if the keys are names; but each key that is no name shares its name with another one. -/
theorem Made.start_tags (h : t.Made) (hends : Acc t.ChildOf t.root) :
    (∃ text tags, t.xml? = some text ∧ Xml.readTags text = some tags ∧
      ∀ id n, Relation.ReflTransGen t.ChildOf id t.root → t.node? id = some n →
        Xml.startTag n ∈ tags ∧ (Xml.startTag n).keys = n.keys.map Xml.name ∧
        ((Xml.startTag n).keys.Nodup ↔
          ∀ key ∈ n.keys, ∀ key' ∈ n.keys, Xml.name key = Xml.name key' → key = key') ∧
        ((∀ key ∈ n.keys, Xml.IsName key) → (Xml.startTag n).keys.Nodup)) ∧
    ∀ key, ¬ Xml.IsName key → ∃ key', key' ≠ key ∧ Xml.name key' = Xml.name key := by
  obtain ⟨visits, htours⟩ := exists_tours hends
  obtain ⟨text, hxml, htags⟩ := h.founded.readTags_xml htours
  refine ⟨⟨text, visits.filterMap t.tag?, hxml, htags, fun id n hbelow hn => ?_⟩,
    fun key => Xml.exists_same_name⟩
  have hkeys : n.keys.Nodup := (h.keyed.node hn).nodup
  refine ⟨?_, Xml.keys_startTag n, Xml.nodup_keys_startTag hkeys, fun hnames => ?_⟩
  · exact List.mem_filterMap.2 ⟨.enter id, htours.enter_mem_iff.2 hbelow, by rw [tag?, hn]; rfl⟩
  · refine (Xml.nodup_keys_startTag hkeys).2 fun key hkey key' hkey' heq => ?_
    rwa [Xml.name_eq_self_iff.2 (hnames key hkey), Xml.name_eq_self_iff.2 (hnames key' hkey')]
      at heq

end Tree

namespace Samples

/-- A single node with two properties. -/
def pairOf (key key' : String) : Tree :=
  let t := Tree.single ⟨2, "R", .nonterminal⟩ .keep
  (t.setProperty 0 key (.int 1)).setProperty 0 key' (.int 2)

theorem pairOf_made (key key' : String) : (pairOf key key').Made :=
  ((Tree.Made.single ⟨2, "R", .nonterminal⟩ .keep).edited_plain
    (e := .setProperty 0 key (.int 1)) rfl rfl).edited_plain
    (e := .setProperty 0 key' (.int 2)) rfl rfl

theorem pairOf_ends (key key' : String) : Acc (pairOf key key').ChildOf (pairOf key key').root :=
  .intro _ fun _ hc => absurd hc List.not_mem_nil

/-- Keys that are names give attributes with different names. -/
theorem pairOf_start_tags : (pairOf "kind" "depth").Made ∧
    ∃ text tags, (pairOf "kind" "depth").xml? = some text ∧ Xml.readTags text = some tags ∧
      ∃ n, (pairOf "kind" "depth").node? 0 = some n ∧ Xml.startTag n ∈ tags ∧
        (Xml.startTag n).keys.Nodup := by
  obtain ⟨⟨text, tags, hxml, htags, hnodes⟩, -⟩ :=
    Tree.Made.start_tags (pairOf_made "kind" "depth") (pairOf_ends _ _)
  obtain ⟨hmem, -, -, hnodup⟩ := hnodes 0 _ .refl rfl
  refine ⟨pairOf_made _ _, text, tags, hxml, htags, _, rfl, hmem, hnodup fun key hkey => ?_⟩
  rcases List.mem_pair.1 hkey with rfl | rfl <;> exact Xml.name_eq_self_iff.1 (by decide)

/-- Two keys may have the same name, and then the XML repeats an attribute. -/
theorem pairOf_repeats : (pairOf "a b" "a_b").Made ∧
    Acc (pairOf "a b" "a_b").ChildOf (pairOf "a b" "a_b").root ∧
    (pairOf "a b" "a_b").xml? = some "<R a_b=\"1\" a_b=\"2\"></R>" ∧
    ∃ n, (pairOf "a b" "a_b").node? 0 = some n ∧ (Xml.startTag n).keys = ["a_b", "a_b"] ∧
      ¬ (Xml.startTag n).keys.Nodup :=
  ⟨pairOf_made _ _, pairOf_ends _ _, by decide +kernel, _, rfl, by decide, by decide⟩

end Samples

end BottomUp
