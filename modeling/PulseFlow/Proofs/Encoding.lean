import PulseFlow.Document.Json
import PulseFlow.Proofs.Legibility

/-!
# Documents as values and as texts

A document is the same after it was made a JSON value and read from it again, and so it is after it
was written as a text.  Indices have to fit 64 bits; everything else may be anything, names may be
there or not.  In the text each real has to be one whose numeral stands for it, which leaves out
those that are not finite, since they have no numeral.  Of a text layer no more is used than that it
reads back the values it writes: those without broken texts whose numbers satisfy `P`, where `P`
covers the whole numbers of 64 bits.

    n.Fits → PlacedNode.ofJson? n.toJson = some n                        (PlacedNode.ofJson?_toJson)
    l.node.Fits → read (write l.value) = some l.value →
      Literal.ofJson? read (l.toJson write) = some l                        (Literal.ofJson?_toJson)
    p.Fits → Project.ofJson? p.toJson = some p                              (Project.ofJson?_toJson)
    p.Fits → (∀ v ∈ p.reals, P (.real v)) → p.toJson.Whole P                         (Project.whole)
-/

namespace PulseFlow

open Decimal

namespace Json

/-! ## Fields -/

theorem namedMembers?_map (ms : List (String × Json)) :
    namedMembers? (ms.map fun m => (some m.1, m.2)) = some ms := by
  induction ms with
  | nil => rfl
  | cons m ms ih => simp [namedMembers?, ih]

theorem fields?_ofMembers (names : List String) (ms : List (String × Json)) :
    fields? names (ofMembers ms) = names.mapM (member? ms) := by
  simp [fields?, ofMembers, namedMembers?_map]

theorem readList?_map {α : Type} {read : Json → Option α} {write : α → Json} {l : List α}
    (h : ∀ a ∈ l, read (write a) = some a) : readList? read (.list (l.map write)) = some l := by
  rw [readList?]
  induction l with
  | nil => rfl
  | cons a l ih =>
    have hrest := ih fun b hb => h b (by simp [hb])
    rw [List.map_cons, List.mapM_cons, h a (by simp), hrest]
    rfl

theorem readNatural?_ofNat {width n : Nat} (h : n < twoTo width) :
    readNatural? width (.ofNat n) = some n := if_pos h

theorem readInteger?_ofInt {width : Nat} {v : Int} (hlow : -(twoTo (width - 1) : Int) ≤ v)
    (hhigh : v < twoTo (width - 1)) : readInteger? width (.ofInt v) = some v := by
  rw [ofInt]
  split_ifs with hv
  · have hfits : v.toNat < twoTo (width - 1) := by omega
    rw [readInteger?, if_pos hfits, Int.toNat_of_nonneg hv]
  · exact if_pos hlow

/-! ## Clean values -/

theorem cleanItems_of_forall {depth : Nat} {js : List Json}
    (h : ∀ j ∈ js, j.clean depth = true) : cleanItems depth js = true := by
  induction js with
  | nil => rfl
  | cons j js ih =>
    rw [cleanItems, h j (by simp), ih fun j hj => h j (by simp [hj])]
    rfl

theorem clean_ofNat (depth n : Nat) : (ofNat n).clean depth = true := by
  simp [ofNat, clean, Number.inRange]

theorem clean_ofInt (depth : Nat) (n : Int) : (ofInt n).clean depth = true := by
  rw [ofInt]
  split_ifs <;> simp [clean, Number.inRange]

theorem clean_ofString (depth : Nat) (s : String) : (ofString s).clean depth = true := by
  simp [ofString, clean]

/-! ## Numbers in values -/

/-- Whole numbers of 64 bits satisfy `P`. -/
structure Number.Covers (P : Number → Prop) : Prop where
  natural : ∀ n, n < twoTo 64 → P (.natural n)
  negative : ∀ v : Int, -(twoTo 63 : Int) ≤ v → v < 0 → P (.negative v)

theorem Number.covers_faithful : Covers Faithful :=
  ⟨fun _ => faithful_natural, fun _ => faithful_negative⟩

/-- A whole number of 64 bits or a finite real. -/
def Number.Finite : Number → Prop
  | .natural n => n < twoTo 64
  | .negative v => -(twoTo 63 : Int) ≤ v ∧ v < 0
  | .real x => isFinite x = true
  | .outOfRange => False

theorem Number.covers_finite : Covers Finite := ⟨fun _ h => h, fun _ h h' => ⟨h, h'⟩⟩

variable {P : Number → Prop}

theorem whole_ofNat (hP : Number.Covers P) {n : Nat} (h : n < twoTo 64) : (ofNat n).Whole P :=
  .number (hP.natural n h)

theorem whole_ofInt (hP : Number.Covers P) {v : Int} (hlow : -(twoTo 63 : Int) ≤ v)
    (hhigh : v < twoTo 63) : (ofInt v).Whole P := by
  have hdouble : twoTo 64 = 2 * twoTo 63 := rfl
  rw [ofInt]
  split_ifs with hv
  · exact .number (hP.natural _ (by omega))
  · exact .number (hP.negative _ hlow (by omega))

theorem whole_ofMembers {ms : List (String × Json)} (h : ∀ m ∈ ms, m.2.Whole P) :
    (ofMembers ms).Whole P := by
  refine .object ?_ ?_
  · intro m hm
    obtain ⟨m', -, rfl⟩ := List.mem_map.1 hm
    rfl
  · intro m hm
    obtain ⟨m', hm', rfl⟩ := List.mem_map.1 hm
    exact h m' hm'

theorem whole_map {α : Type} {write : α → Json} {l : List α} (h : ∀ a ∈ l, (write a).Whole P) :
    (list (l.map write)).Whole P := by
  refine .list fun j hj => ?_
  obtain ⟨a, ha, rfl⟩ := List.mem_map.1 hj
  exact h a ha

end Json

namespace Document

open Json

variable {P : Number → Prop}

theorem readInt32?_ofInt (v : Int32) : readInt32? (.ofInt v.toInt) = some v := by
  have hlow := v.le_toInt
  have hhigh := v.toInt_lt
  rw [readInt32?, readInteger?_ofInt hlow hhigh]
  simp

theorem readInt64?_ofInt (v : Int64) : readInt64? (.ofInt v.toInt) = some v := by
  have hlow := v.le_toInt
  have hhigh := v.toInt_lt
  rw [readInt64?, readInteger?_ofInt hlow hhigh]
  simp

theorem readUInt32?_ofNat (v : UInt32) : readUInt32? (.ofNat v.toNat) = some v := by
  rw [readUInt32?, readNatural?_ofNat v.toNat_lt]
  simp

/-! ## Nodes -/

structure Edge.Fits (e : Edge) : Prop where
  node : e.node < twoTo 64
  socket : e.socket < twoTo 64

/-- All indices of a node fit 64 bits. -/
structure PlacedNode.Fits (n : PlacedNode) : Prop where
  index : n.index < twoTo 64
  outputs : ∀ es ∈ n.outputs, ∀ e ∈ es, e.Fits

instance (e : Edge) : Decidable e.Fits :=
  decidable_of_iff (e.node < twoTo 64 ∧ e.socket < twoTo 64)
    ⟨fun h => ⟨h.1, h.2⟩, fun h => ⟨h.node, h.socket⟩⟩

instance (n : PlacedNode) : Decidable n.Fits :=
  decidable_of_iff (n.index < twoTo 64 ∧ ∀ es ∈ n.outputs, ∀ e ∈ es, e.Fits)
    ⟨fun h => ⟨h.1, h.2⟩, fun h => ⟨h.index, h.outputs⟩⟩

theorem Edge.ofJson?_toJson {e : Edge} (h : e.Fits) : Edge.ofJson? e.toJson = some e := by
  have hfields : fields? ["node", "socket"] e.toJson =
      some [some (.ofNat e.node), some (.ofNat e.socket)] := by
    rw [Edge.toJson, fields?_ofMembers]
    simp [member?]
  rw [Edge.ofJson?, hfields]
  simp [Json.required, readNatural?_ofNat h.node, readNatural?_ofNat h.socket]

namespace PlacedNode

variable {n : PlacedNode}

/-- Each member is found under its name; a name that is absent is a missing member. -/
theorem fields?_toJson (n : PlacedNode) :
    fields? ["index", "x", "y", "category", "identifier", "outputs"] n.toJson =
      some [some (.ofNat n.index), some (.ofInt n.x.toInt), some (.ofInt n.y.toInt),
        n.category.map .ofString, n.identifier.map .ofString,
        some (.list (n.outputs.map fun es => .list (es.map Edge.toJson)))] := by
  rw [toJson, fields?_ofMembers, members]
  cases n.category <;> cases n.identifier <;> simp [member?, nameMember]

theorem optional_name (name : Option String) :
    Json.optional none (nullable readString?) (name.map .ofString) = some name := by
  cases name <;> rfl

theorem ofJson?_toJson (h : n.Fits) : PlacedNode.ofJson? n.toJson = some n := by
  have houtputs : readList? (readList? Edge.ofJson?)
      (.list (n.outputs.map fun es => .list (es.map Edge.toJson))) = some n.outputs :=
    readList?_map fun es hes => readList?_map fun e he =>
      Edge.ofJson?_toJson (h.outputs es hes e he)
  rw [ofJson?, fields?_toJson]
  simp only [Option.bind_eq_bind, Option.bind_some, optional_name]
  simp [Json.required, Json.optional, readNatural?_ofNat h.index, readInt32?_ofInt, houtputs]

theorem mem_nameMember {name : String} {o : Option String} {m : String × Json}
    (h : m ∈ nameMember name o) : ∃ s, m = (name, .ofString s) := by
  cases o with
  | none => simp [nameMember] at h
  | some s => exact ⟨s, by simpa [nameMember] using h⟩

theorem mem_members {m : String × Json} (h : m ∈ n.members) :
    m = ("index", .ofNat n.index) ∨ m = ("x", .ofInt n.x.toInt) ∨ m = ("y", .ofInt n.y.toInt) ∨
      (∃ s, m = ("category", .ofString s)) ∨ (∃ s, m = ("identifier", .ofString s)) ∨
      m = ("outputs", .list (n.outputs.map fun es => .list (es.map Edge.toJson))) := by
  simp only [members, List.mem_append, List.mem_cons, List.not_mem_nil, or_false] at h
  obtain (((hm | hm | hm) | hm) | hm) | hm := h
  · exact .inl hm
  · exact .inr (.inl hm)
  · exact .inr (.inr (.inl hm))
  · exact .inr (.inr (.inr (.inl (mem_nameMember hm))))
  · exact .inr (.inr (.inr (.inr (.inl (mem_nameMember hm)))))
  · exact .inr (.inr (.inr (.inr (.inr hm))))

/-- No member of a node has the name under which a literal keeps its value. -/
theorem name_ne_value {m : String × Json} (h : m ∈ n.members) : m.1 ≠ "value" := by
  obtain rfl | rfl | rfl | ⟨s, rfl⟩ | ⟨s, rfl⟩ | rfl := mem_members h <;> simp

theorem clean_edge (depth : Nat) (e : Edge) : e.toJson.clean (depth + 1) = true := by
  simp [Edge.toJson, ofMembers, clean, cleanMembers, clean_ofNat]

/-- The members of a node have at most three levels. -/
theorem clean_members {m : String × Json} (h : m ∈ n.members) :
    m.2.clean literalDepth = true := by
  obtain rfl | rfl | rfl | ⟨s, rfl⟩ | ⟨s, rfl⟩ | rfl := mem_members h
  · exact clean_ofNat _ _
  · exact clean_ofInt _ _
  · exact clean_ofInt _ _
  · exact clean_ofString _ _
  · exact clean_ofString _ _
  · rw [literalDepth, clean]
    refine cleanItems_of_forall fun j hj => ?_
    obtain ⟨es, -, rfl⟩ := List.mem_map.1 hj
    rw [clean]
    refine cleanItems_of_forall fun j hj => ?_
    obtain ⟨e, -, rfl⟩ := List.mem_map.1 hj
    exact clean_edge _ e

theorem whole_edge (hP : Number.Covers P) {e : Edge} (h : e.Fits) : e.toJson.Whole P := by
  refine whole_ofMembers fun m hm => ?_
  simp only [List.mem_cons, List.not_mem_nil, or_false] at hm
  obtain rfl | rfl := hm
  · exact whole_ofNat hP h.node
  · exact whole_ofNat hP h.socket

theorem whole_int32 (hP : Number.Covers P) (v : Int32) : (ofInt v.toInt).Whole P := by
  have hlow : -(twoTo 31 : Int) ≤ v.toInt := v.le_toInt
  have hhigh : v.toInt < (twoTo 31 : Int) := v.toInt_lt
  have hwider : twoTo 31 ≤ twoTo 63 := by decide
  exact whole_ofInt hP (by omega) (by omega)

theorem whole_members (hP : Number.Covers P) (hn : n.Fits) {m : String × Json}
    (h : m ∈ n.members) : m.2.Whole P := by
  obtain rfl | rfl | rfl | ⟨s, rfl⟩ | ⟨s, rfl⟩ | rfl := mem_members h
  · exact whole_ofNat hP hn.index
  · exact whole_int32 hP n.x
  · exact whole_int32 hP n.y
  · exact .text s
  · exact .text s
  · exact whole_map fun es hes => whole_map fun e he => whole_edge hP (hn.outputs es hes e he)

theorem whole (hP : Number.Covers P) (hn : n.Fits) : n.toJson.Whole P :=
  whole_ofMembers fun _ => whole_members hP hn

end PlacedNode

namespace Literal

variable {α : Type} {write : α → Json} {read : Json → Option α} {l : Literal α}

theorem member?_value (n : PlacedNode) (v : Json) :
    member? (n.members ++ [("value", v)]) "value" = some (some v) := by
  have hnone : (n.members.filter fun m => m.1 == "value") = [] := by
    rw [List.filter_eq_nil_iff]
    intro m hm
    simpa using PlacedNode.name_ne_value hm
  rw [member?, List.filter_append, hnone]
  simp

theorem filter_members (n : PlacedNode) (v : Json) :
    ((n.members ++ [("value", v)]).filter fun m => m.1 != "value") = n.members := by
  have hall : (n.members.filter fun m => m.1 != "value") = n.members := by
    rw [List.filter_eq_self]
    intro m hm
    simpa using PlacedNode.name_ne_value hm
  rw [List.filter_append, hall]
  simp

/-- A literal shares one object with its node, and both are taken out of it again. -/
theorem ofJson?_toJson (hn : l.node.Fits) (hv : read (write l.value) = some l.value) :
    Literal.ofJson? read (l.toJson write) = some l := by
  have hclean : (l.node.members.all fun m => m.2.clean literalDepth) = true :=
    List.all_eq_true.2 fun m hm => PlacedNode.clean_members hm
  have hnode : PlacedNode.ofJson? (ofMembers l.node.members) = some l.node :=
    PlacedNode.ofJson?_toJson hn
  rw [toJson, ofMembers, Literal.ofJson?, namedMembers?_map]
  simp only [Option.bind_eq_bind, Option.bind_some, member?_value, Json.required, hv,
    filter_members, hclean, if_true, hnode]
  rfl

theorem whole (hP : Number.Covers P) (hn : l.node.Fits) (hv : (write l.value).Whole P) :
    (l.toJson write).Whole P := by
  refine whole_ofMembers fun m hm => ?_
  obtain hm | rfl : m ∈ l.node.members ∨ m = ("value", write l.value) := by simpa using hm
  · exact PlacedNode.whole_members hP hn hm
  · exact hv

end Literal

/-! ## Prototypes -/

theorem Canvas.ofJson?_toJson (c : Canvas) : Canvas.ofJson? (Canvas.toJson c) = some c := by
  have hfields : fields? ["width", "height"] (Canvas.toJson c) =
      some [some (.ofNat c.width.toNat), some (.ofNat c.height.toNat)] := by
    rw [Canvas.toJson, fields?_ofMembers]
    simp [member?]
  rw [Canvas.ofJson?, hfields]
  simp [Json.required, readUInt32?_ofNat]

theorem Canvas.whole (hP : Number.Covers P) (c : Canvas) : (Canvas.toJson c).Whole P := by
  have hwider : twoTo 32 ≤ twoTo 64 := by decide
  refine whole_ofMembers fun m hm => ?_
  simp only [List.mem_cons, List.not_mem_nil, or_false] at hm
  obtain rfl | rfl := hm
  · exact whole_ofNat hP (Nat.lt_of_lt_of_le c.width.toNat_lt hwider)
  · exact whole_ofNat hP (Nat.lt_of_lt_of_le c.height.toNat_lt hwider)

structure InnerNodes.Fits (n : InnerNodes) : Prop where
  named : ∀ p ∈ n.named, p.Fits
  ints : ∀ l ∈ n.ints, l.node.Fits
  reals : ∀ l ∈ n.reals, l.node.Fits
  texts : ∀ l ∈ n.texts, l.node.Fits
  nans : ∀ p ∈ n.nans, p.Fits

namespace InnerNodes

variable {n : InnerNodes}

theorem fields?_toJson (n : InnerNodes) :
    fields? ["native", "int", "real", "string", "nan"] n.toJson =
      some [some (.list (n.named.map PlacedNode.toJson)),
        some (.list (n.ints.map (Literal.toJson fun v => .ofInt v.toInt))),
        some (.list (n.reals.map (Literal.toJson fun v => .number (.real v)))),
        some (.list (n.texts.map (Literal.toJson .ofString))),
        some (.list (n.nans.map PlacedNode.toJson))] := by
  rw [toJson, fields?_ofMembers]
  simp [member?]

theorem ofJson?_toJson (h : n.Fits) : InnerNodes.ofJson? n.toJson = some n := by
  have hnamed := readList?_map fun p hp => PlacedNode.ofJson?_toJson (h.named p hp)
  have hints : readList? (Literal.ofJson? readInt64?)
      (.list (n.ints.map (Literal.toJson fun v => .ofInt v.toInt))) = some n.ints :=
    readList?_map fun l hl => Literal.ofJson?_toJson (h.ints l hl) (readInt64?_ofInt l.value)
  have hreals : readList? (Literal.ofJson? readReal?)
      (.list (n.reals.map (Literal.toJson fun v => .number (.real v)))) = some n.reals :=
    readList?_map fun l hl => Literal.ofJson?_toJson (h.reals l hl) rfl
  have htexts : readList? (Literal.ofJson? readString?)
      (.list (n.texts.map (Literal.toJson .ofString))) = some n.texts :=
    readList?_map fun l hl => Literal.ofJson?_toJson (h.texts l hl) rfl
  have hnans := readList?_map fun p hp => PlacedNode.ofJson?_toJson (h.nans p hp)
  rw [ofJson?, fields?_toJson]
  simp [Json.optional, hnamed, hints, hreals, htexts, hnans]

theorem whole (hP : Number.Covers P) (h : n.Fits) (hreals : ∀ l ∈ n.reals, P (.real l.value)) :
    n.toJson.Whole P := by
  refine whole_ofMembers fun m hm => ?_
  simp only [List.mem_cons, List.not_mem_nil, or_false] at hm
  obtain rfl | rfl | rfl | rfl | rfl := hm
  · exact whole_map fun p hp => PlacedNode.whole hP (h.named p hp)
  · exact whole_map fun l hl => Literal.whole hP (h.ints l hl)
      (whole_ofInt hP l.value.le_toInt l.value.toInt_lt)
  · exact whole_map fun l hl => Literal.whole hP (h.reals l hl) (.number (hreals l hl))
  · exact whole_map fun l hl => Literal.whole hP (h.texts l hl) (.text l.value)
  · exact whole_map fun p hp => PlacedNode.whole hP (h.nans p hp)

end InnerNodes

namespace Template

variable {t : Template}

theorem fits_nodes (h : ∀ n ∈ t.placed, n.Fits) : t.nodes.Fits where
  named n hn := h n (by simp [placed, hn])
  ints l hl := h l.node (by simp only [placed, List.mem_append]; grind)
  reals l hl := h l.node (by simp only [placed, List.mem_append]; grind)
  texts l hl := h l.node (by simp only [placed, List.mem_append]; grind)
  nans n hn := h n (by simp [placed, hn])

theorem fields?_toJson (t : Template) :
    fields? ["category", "identifier", "size", "inputs", "outputs", "nodes"] t.toJson =
      some [some (.ofString t.key.category), some (.ofString t.key.identifier),
        some (Canvas.toJson t.canvas), some (.list (t.inputs.map PlacedNode.toJson)),
        some (.list (t.outputs.map PlacedNode.toJson)), some t.nodes.toJson] := by
  rw [toJson, fields?_ofMembers]
  simp [member?]

theorem ofJson?_toJson (h : ∀ n ∈ t.placed, n.Fits) : Template.ofJson? t.toJson = some t := by
  have hinputs := readList?_map fun n (hn : n ∈ t.inputs) =>
    PlacedNode.ofJson?_toJson (h n (by simp [placed, hn]))
  have houtputs := readList?_map fun n (hn : n ∈ t.outputs) =>
    PlacedNode.ofJson?_toJson (h n (by simp [placed, hn]))
  have hnodes := InnerNodes.ofJson?_toJson (fits_nodes h)
  have hstring : ∀ s, readString? (.ofString s) = some s := fun s => rfl
  rw [ofJson?, fields?_toJson]
  simp [Json.required, Json.optional, hstring, Canvas.ofJson?_toJson, hinputs, houtputs, hnodes]

theorem whole (hP : Number.Covers P) (h : ∀ n ∈ t.placed, n.Fits)
    (hreals : ∀ l ∈ t.nodes.reals, P (.real l.value)) : t.toJson.Whole P := by
  refine whole_ofMembers fun m hm => ?_
  simp only [List.mem_cons, List.not_mem_nil, or_false] at hm
  obtain rfl | rfl | rfl | rfl | rfl | rfl := hm
  · exact .text _
  · exact .text _
  · exact Canvas.whole hP t.canvas
  · exact whole_map fun n hn => PlacedNode.whole hP (h n (by simp [placed, hn]))
  · exact whole_map fun n hn => PlacedNode.whole hP (h n (by simp [placed, hn]))
  · exact InnerNodes.whole hP (fits_nodes h) hreals

end Template

/-! ## Projects -/

namespace Project

/-- All indices of a document fit 64 bits. -/
def Fits (p : Project) : Prop := ∀ t ∈ p.prototypes, ∀ n ∈ t.placed, n.Fits

instance (p : Project) : Decidable p.Fits :=
  inferInstanceAs (Decidable (∀ t ∈ p.prototypes, ∀ n ∈ t.placed, n.Fits))

/-- The real literals of a document. -/
def reals (p : Project) : List Float :=
  p.prototypes.flatMap fun t => t.nodes.reals.map Literal.value

variable {p : Project}

theorem ofJson?_toJson (h : p.Fits) : Project.ofJson? p.toJson = some p := by
  have hfields : fields? ["prototypes"] p.toJson =
      some [some (.list (p.prototypes.map Template.toJson))] := by
    rw [toJson, fields?_ofMembers]
    simp [member?]
  have hprototypes := readList?_map fun t ht => Template.ofJson?_toJson (h t ht)
  rw [ofJson?, hfields]
  simp [Json.required, hprototypes]

theorem whole (hP : Number.Covers P) (h : p.Fits) (hreals : ∀ v ∈ p.reals, P (.real v)) :
    p.toJson.Whole P := by
  refine whole_ofMembers fun m hm => ?_
  obtain rfl := List.mem_singleton.1 hm
  refine whole_map fun t ht => Template.whole hP (h t ht) fun l hl => hreals l.value ?_
  exact List.mem_flatMap.2 ⟨t, ht, List.mem_map_of_mem hl⟩

/-- A document is decoded to what was encoded.  As a value that is so whatever its reals are; as a
text it is so if the numerals of its reals stand for them, all other values being read back.  With
any other writer and reader of values it is so for finite reals, if these are read back as well. -/
theorem decodes_encoded (p : Project) (h : p.Fits) :
    Project.ofJson? p.toJson = some p ∧
      ((∀ v ∈ p.reals, (Number.real v).Faithful) → Project.read? p.write = some p) ∧
      ∀ (Text : Type) (write : Json → Text) (read : Text → Option Json),
        (∀ j, j.Whole Number.Finite → read (write j) = some j) →
          (∀ v ∈ p.reals, isFinite v = true) →
            (read (write p.toJson)).bind Project.ofJson? = some p := by
  refine ⟨ofJson?_toJson h, fun hreals => ?_, fun Text write read hread hreals => ?_⟩
  · rw [read?, write, read?_write (whole Number.covers_faithful h hreals), Option.bind_some]
    exact ofJson?_toJson h
  · rw [hread _ (whole Number.covers_finite h hreals), Option.bind_some]
    exact ofJson?_toJson h

/-- Names that need escapes, literals with one name or none, and numbers at the ends of their
ranges. -/
def crowded : Project where
  prototypes := [{
    key := ⟨"\"quoted\"\\", "line\n\x01"⟩
    canvas := ⟨0, 4294967295⟩
    inputs := [{
      index := 0
      x := -2147483648
      outputs := [[⟨18446744073709551615, 0⟩, ⟨4, 1⟩], []] }]
    outputs := [{ index := 18446744073709551615, category := some "", identifier := some "é" }]
    nodes := {
      named := [{ index := 1, category := some "value", y := 2147483647 }]
      ints := [⟨{ index := 2 }, -9223372036854775808⟩, ⟨{ index := 3 }, 9223372036854775807⟩]
      reals := [⟨{ index := 4, identifier := some "null" }, -0.1⟩, ⟨{ index := 5 }, 5e-324⟩]
      texts := [⟨{ index := 6, category := some "a/b" }, "\t\x7f"⟩]
      nans := [{ index := 7 }] } }]

theorem decodes_encoded_crowded :
    crowded.Fits ∧ (∀ v ∈ crowded.reals, (Number.real v).Faithful ∧ isFinite v = true) ∧
      Project.ofJson? crowded.toJson = some crowded ∧
      Project.read? crowded.write = some crowded ∧
      ∀ (Text : Type) (write : Json → Text) (read : Text → Option Json),
        (∀ j, j.Whole Number.Finite → read (write j) = some j) →
          (read (write crowded.toJson)).bind Project.ofJson? = some crowded := by
  have hfits : crowded.Fits := by decide +kernel
  have hreals : ∀ v ∈ crowded.reals, (Number.real v).Faithful ∧ isFinite v = true := by
    decide +kernel
  obtain ⟨hvalue, htext, hlayer⟩ := decodes_encoded crowded hfits
  exact ⟨hfits, hreals, hvalue, htext fun v hv => (hreals v hv).1,
    fun Text write read hread => hlayer Text write read hread fun v hv => (hreals v hv).2⟩

end Project

end Document

end PulseFlow
