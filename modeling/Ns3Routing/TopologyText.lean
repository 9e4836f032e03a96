import Ns3Routing.TopologyFile

/-! # Topology files as they are written

The first line says how many nodes and links there are. The line of a node
begins with its number, the line of a link with the numbers of its nodes. Such
a file is read as it is meant (`readNetwork_text`), whatever else its lines say
and whatever is behind the last. -/

namespace Ns3Routing.SimulatorMain

open Lib Lib.Istream

/-- What else is on a line. -/
structure Rest where
  text : Text
  head_space : ∀ c, text.head? = some c → space c = true
  in_line : ∀ c ∈ text, c ≠ 10

/-- A line with two numbers. -/
structure PairLine where
  source : ℕ
  gap : Text
  gap_ne_nil : gap ≠ []
  gap_space : ∀ c ∈ gap, space c = true ∧ c ≠ 10
  target : ℕ
  rest : Rest

def nodeText (i : ℕ) (rest : Rest) : Text := digitsOf i ++ rest.text

def PairLine.text (line : PairLine) : Text :=
  digitsOf line.source ++ (line.gap ++ (digitsOf line.target ++ line.rest.text))

/-- A topology as it is written. -/
structure TopologyText where
  first : PairLine
  nodes : List Rest
  links : List PairLine
  totnode : first.source = nodes.length
  totlink : first.target = links.length
  nodes_lt : nodes.length < 2 ^ 31
  links_lt : links.length < 2 ^ 31

def nodeLines (i : ℕ) : List Rest → Text
  | [] => []
  | rest :: nodes => nodeText i rest ++ 10 :: nodeLines (i + 1) nodes

def linkLines : List PairLine → Text
  | [] => []
  | line :: links => line.text ++ 10 :: linkLines links

/-- The file, and what is behind its last line. -/
def TopologyText.file (T : TopologyText) (more : Text) : Text :=
  T.first.text ++ 10 :: (nodeLines 0 T.nodes ++ (linkLines T.links ++ more))

/-! ## Its lines -/

section Lines
variable {line : PairLine} {rest : Rest} {s : Istream} {more : Text}

theorem digitsOf_in_line (n : ℕ) : ∀ c ∈ digitsOf n, c ≠ 10 := by
  rintro c hc rfl
  cases not_space_digitsOf n 10 hc

theorem nodeText_in_line (i : ℕ) (rest : Rest) : ∀ c ∈ nodeText i rest, c ≠ 10 := by
  intro c hc
  rcases List.mem_append.mp hc with hc | hc
  · exact digitsOf_in_line i c hc
  · exact rest.in_line c hc

theorem PairLine.in_line (line : PairLine) : ∀ c ∈ line.text, c ≠ 10 := by
  intro c hc
  rcases List.mem_append.mp hc with hc | hc
  · exact digitsOf_in_line _ c hc
  · rcases List.mem_append.mp hc with hc | hc
    · exact (line.gap_space c hc).2
    · exact nodeText_in_line _ _ c hc

theorem PairLine.head_space (line : PairLine) (c : UInt8)
    (h : (line.gap ++ (digitsOf line.target ++ line.rest.text)).head? = some c) : space c = true := by
  rw [List.head?_append_of_ne_nil _ line.gap_ne_nil] at h
  exact (line.gap_space c (List.mem_of_mem_head? h)).1

theorem PairLine.readWords (line : PairLine) (source target : Text) :
    ((ofText line.text).readWord source).1 = digitsOf line.source ∧
      (((ofText line.text).readWord source).2.readWord target).1 = digitsOf line.target := by
  have hrest : (ofText line.text).rest = [] ++ line.text := rfl
  have hfirst := readWord_of rfl hrest (digitsOf_ne_nil _) (by simp)
    (not_space_digitsOf _) line.head_space source
  have hgood : (⟨line.gap ++ (digitsOf line.target ++ line.rest.text),
      (line.gap ++ (digitsOf line.target ++ line.rest.text)).isEmpty, false⟩ : Istream).good =
        true := by
    simp [good, line.gap_ne_nil]
  have hsecond := readWord_of hgood rfl (digitsOf_ne_nil _) (fun c hc => (line.gap_space c hc).1)
    (not_space_digitsOf _) line.rest.head_space target
  rw [hfirst, hsecond]
  exact ⟨rfl, rfl⟩

theorem PairLine.readInts (line : PairLine) (hsource : line.source < 2 ^ 31)
    (htarget : line.target < 2 ^ 31) :
    ((ofText line.text).readInt 0).1 = line.source ∧
      (((ofText line.text).readInt 0).2.readInt 0).1 = line.target := by
  have hrest : (ofText line.text).rest = [] ++ line.text := rfl
  have hfirst := readNumber_of toInt rfl hrest (digitsOf_ne_nil _) (by simp)
    (digits_digitsOf _) (fun c hc => not_digit_of_space (line.head_space c hc)) 0
  rw [digitsValue_digitsOf, toInt, if_neg Bool.false_ne_true, if_pos hsource] at hfirst
  have hgood : (⟨line.gap ++ (digitsOf line.target ++ line.rest.text),
      (line.gap ++ (digitsOf line.target ++ line.rest.text)).isEmpty, false⟩ : Istream).good =
        true := by
    simp [good, line.gap_ne_nil]
  have hsecond := readNumber_of toInt hgood rfl (digitsOf_ne_nil _)
    (fun c hc => (line.gap_space c hc).1)
    (digits_digitsOf _) (fun c hc => not_digit_of_space (line.rest.head_space c hc)) 0
  rw [digitsValue_digitsOf, toInt, if_neg Bool.false_ne_true, if_pos htarget] at hsecond
  rw [readInt, hfirst, hsecond]
  exact ⟨rfl, rfl⟩

end Lines

/-! ## It is read back -/

namespace InetReader
variable {st : InetReader} {more : Text} {i : ℕ} {containerMap : Text → Option ℕ}

theorem nextLine_of {line : Text} (hrest : st.topgen = ⟨line ++ 10 :: more, false, false⟩)
    (hline : ∀ c ∈ line, c ≠ 10) :
    st.nextLine = ({ st with topgen := ⟨more, false, false⟩, line }, ofText line) := by
  rw [nextLine, hrest, getline_of rfl rfl hline]

theorem readNode_line {rest : Rest}
    (hrest : st.topgen = ⟨nodeText i rest ++ 10 :: more, false, false⟩) :
    (st.readNode i).topgen = ⟨more, false, false⟩ ∧
      (st.readNode i).containerMap = Function.update st.containerMap (digitsOf i) (some i) := by
  have htext : (ofText (nodeText i rest)).rest = [] ++ nodeText i rest := rfl
  have hread := readWord_of rfl htext (digitsOf_ne_nil i) (by simp) (not_space_digitsOf i)
    rest.head_space []
  rw [readNode, nextLine_of hrest (nodeText_in_line i rest)]
  dsimp only
  rw [hread]
  exact ⟨rfl, rfl⟩

/-- The lines of the nodes from `i` on. -/
theorem foldl_readNode {nodes : List Rest}
    (hrest : st.topgen = ⟨nodeLines i nodes ++ more, false, false⟩)
    (hmap : ∀ a, st.containerMap (digitsOf a) = if a < i then some a else none) :
    ((List.range' i nodes.length).foldl readNode st).topgen = ⟨more, false, false⟩ ∧
      ∀ a, ((List.range' i nodes.length).foldl readNode st).containerMap (digitsOf a) =
        if a < i + nodes.length then some a else none := by
  induction nodes generalizing st i with
  | nil => exact ⟨hrest, hmap⟩
  | cons rest nodes ih =>
    rw [nodeLines, List.append_assoc, List.cons_append] at hrest
    obtain ⟨htopgen, hcontainer⟩ := readNode_line hrest
    rw [List.length_cons, List.range'_succ, List.foldl_cons, Nat.add_comm nodes.length,
      ← Nat.add_assoc]
    refine ih htopgen fun a => ?_
    rw [hcontainer]
    by_cases ha : a = i
    · subst ha
      rw [Function.update_self, if_pos (Nat.lt_succ_self a)]
    · rw [Function.update_of_ne (fun heq => ha (digitsOf_inj.mp heq)), hmap]
      exact if_congr (by omega) rfl rfl

theorem findNode_topgen (name : Text) : (st.findNode name).topgen = st.topgen := by
  unfold findNode
  split <;> rfl

theorem findNode_links (name : Text) : (st.findNode name).links = st.links := by
  unfold findNode
  split <;> rfl

/-- The link of a line. -/
def linkOf (containerMap : Text → Option ℕ) (line : PairLine) : TopologyLink :=
  ⟨containerMap (digitsOf line.source), digitsOf line.source, containerMap (digitsOf line.target),
    digitsOf line.target⟩

theorem readLink_line (h : Found containerMap st) {line : PairLine}
    (hrest : st.topgen = ⟨line.text ++ 10 :: more, false, false⟩) :
    st.readLink.topgen = ⟨more, false, false⟩ ∧
      st.readLink.links = st.links ++ [linkOf containerMap line] := by
  obtain ⟨hsource, htarget⟩ := line.readWords st.source st.target
  rw [readLink, nextLine_of hrest line.in_line]
  dsimp only
  rw [hsource, htarget, if_pos ⟨digitsOf_ne_nil _, digitsOf_ne_nil _⟩]
  dsimp only
  have hfound : Found containerMap
      { st with
        topgen := ⟨more, false, false⟩
        line := line.text
        source := digitsOf line.source
        target := digitsOf line.target } := ⟨h.same, h.nodeMap, h.links⟩
  obtain ⟨hfirst, hfrom, _⟩ := hfound.findNode (digitsOf line.source)
  obtain ⟨_, hto, hkeep⟩ := hfirst.findNode (digitsOf line.target)
  rw [findNode_topgen, findNode_topgen, findNode_links, findNode_links, hto, hkeep _ hfrom]
  exact ⟨rfl, rfl⟩

theorem readLinks_lines (h : Found containerMap st) {links : List PairLine}
    (hrest : st.topgen = ⟨linkLines links ++ more, false, false⟩) :
    (readLinks links.length st).links = st.links ++ links.map (linkOf containerMap) := by
  induction links generalizing st with
  | nil => exact (List.append_nil _).symm
  | cons line links ih =>
    rw [linkLines, List.append_assoc, List.cons_append] at hrest
    obtain ⟨htopgen, hlinks⟩ := readLink_line h hrest
    rw [List.length_cons, readLinks, if_neg (by simp [hrest]), ih h.readLink htopgen, hlinks,
      List.append_assoc]
    rfl

end InetReader

namespace TopologyText
variable (T : TopologyText) (more : Text)

/-- The pointer found for the name of node `a`. -/
def pointer (a : ℕ) : Option ℕ := if a < T.nodes.length then some a else none

def link (line : PairLine) : TopologyLink :=
  ⟨T.pointer line.source, digitsOf line.source, T.pointer line.target, digitsOf line.target⟩

theorem header_file : InetReader.header (T.file more) =
    (⟨⟨nodeLines 0 T.nodes ++ (linkLines T.links ++ more), false, false⟩, T.first.text,
      fun _ => none, fun _ => none, [], [], []⟩, T.nodes.length, T.links.length) := by
  have hfirst := T.first.readInts (T.totnode ▸ T.nodes_lt) (T.totlink ▸ T.links_lt)
  rw [InetReader.header, file, getline_of rfl rfl T.first.in_line]
  dsimp only
  rw [hfirst.1, hfirst.2, T.totnode, T.totlink]
  rfl

/-- The nodes and links of the file are those that are written. -/
theorem read_file : InetReader.read (T.file more) = (T.nodes.length, T.links.map T.link) := by
  rw [InetReader.read, header_file]
  dsimp only
  generalize hst : (⟨⟨nodeLines 0 T.nodes ++ (linkLines T.links ++ more), false, false⟩, T.first.text,
    fun _ => none, fun _ => none, [], [], []⟩ : InetReader) = st
  have hmap : st.containerMap = fun _ => none := by rw [← hst]
  have hrest : st.topgen = ⟨nodeLines 0 T.nodes ++ (linkLines T.links ++ more), false, false⟩ := by
    rw [← hst]
  obtain ⟨_, hnode, hlinks⟩ := InetReader.found_nodes hmap (by rw [← hst]) (by rw [← hst])
    T.nodes.length
  obtain ⟨htopgen, hcontainer⟩ := InetReader.foldl_readNode hrest fun a => by simp [hmap]
  rw [← List.range_eq_range'] at htopgen hcontainer
  have hfound : InetReader.Found ((List.range T.nodes.length).foldl InetReader.readNode st).containerMap
      ((List.range T.nodes.length).foldl InetReader.readNode st) :=
    ⟨rfl, fun x => Or.inl (by rw [hnode]), fun x hx => by rw [hlinks] at hx; cases hx⟩
  rw [InetReader.readLinks_lines hfound htopgen, hlinks, List.nil_append]
  refine congrArg (Prod.mk _) (List.map_congr_left fun line _ => ?_)
  rw [InetReader.linkOf, hcontainer, hcontainer, Nat.zero_add]
  rfl

/-! ## What becomes of it -/

/-- Every number is that of a node, and every node is in a link. -/
structure Proper (T : TopologyText) : Prop where
  ne_nil : T.links ≠ []
  lt : ∀ line ∈ T.links, line.source < T.nodes.length ∧ line.target < T.nodes.length
  linked : ∀ i < T.nodes.length, ∃ line ∈ T.links, line.source = i ∨ line.target = i
  length_le : T.links.length ≤ 2 ^ 24

/-- The network of the file. -/
def network (T : TopologyText) : Network where
  realNodes := List.range T.nodes.length
  links := T.links.map fun line => (line.source, line.target)
  addresses := (List.range T.links.length).map fun k =>
    (Ipv4AddressHelper.linkAddress k false, Ipv4AddressHelper.linkAddress k true)

variable {T}

theorem extractU32_digitsOf_of_lt {a : ℕ} (h : a < 2 ^ 32) :
    extractU32 (digitsOf a) = some (UInt32.ofNat a) := by
  have hread := extractU32_digitsOf (UInt32.ofNat a)
  rwa [UInt32.toNat_ofNat_of_lt' h] at hread

theorem pointer_eq_some {a node : ℕ} : T.pointer a = some node ↔ a = node ∧ a < T.nodes.length := by
  rw [pointer]
  split_ifs with h <;> simp [h]

theorem mem_ends {x : Text × Option ℕ} : x ∈ (T.links.map T.link).flatMap TopologyLink.ends ↔
    ∃ line ∈ T.links, ∃ a, (a = line.source ∨ a = line.target) ∧ x = (digitsOf a, T.pointer a) := by
  simp only [List.mem_flatMap, List.mem_map, TopologyLink.ends, List.mem_pair, link]
  constructor
  · rintro ⟨_, ⟨line, hline, rfl⟩, rfl | rfl⟩
    · exact ⟨line, hline, _, Or.inl rfl, rfl⟩
    · exact ⟨line, hline, _, Or.inr rfl, rfl⟩
  · rintro ⟨line, hline, _, rfl | rfl, rfl⟩
    · exact ⟨_, ⟨line, hline, rfl⟩, Or.inl rfl⟩
    · exact ⟨_, ⟨line, hline, rfl⟩, Or.inr rfl⟩

theorem ofNat_inj_of_lt {a b : ℕ} (ha : a < T.nodes.length) (hb : b < T.nodes.length)
    (h : UInt32.ofNat a = UInt32.ofNat b) : a = b := by
  have hlt : T.nodes.length < UInt32.size := T.nodes_lt.trans (by decide)
  have hnat := congrArg UInt32.toNat h
  rwa [UInt32.toNat_ofNat_of_lt' (ha.trans hlt), UInt32.toNat_ofNat_of_lt' (hb.trans hlt)] at hnat

/-- The name of a node gives its number. -/
theorem number_of_end {x : Text × Option ℕ} (hx : x ∈ (T.links.map T.link).flatMap TopologyLink.ends)
    {node i : ℕ} (hnode : x.2 = some node) (hi : i < T.nodes.length)
    (hname : extractU32 x.1 = some (UInt32.ofNat i)) :
    node = i ∧ ∃ line ∈ T.links, line.source = i ∨ line.target = i := by
  obtain ⟨line, hline, a, hor, rfl⟩ := mem_ends.mp hx
  obtain ⟨rfl, ha⟩ := pointer_eq_some.mp hnode
  have hlt := T.nodes_lt
  rw [extractU32_digitsOf_of_lt (by omega)] at hname
  obtain rfl := ofNat_inj_of_lt ha hi (Option.some.inj hname)
  exact ⟨rfl, line, hline, hor.imp Eq.symm Eq.symm⟩

theorem installed_link {line : PairLine} {l : ℕ × ℕ} : installed (T.link line) = some l ↔
    l = (line.source, line.target) ∧ line.source < T.nodes.length ∧ line.target < T.nodes.length := by
  rw [installed_eq_some, link, pointer_eq_some, pointer_eq_some]
  constructor
  · rintro ⟨⟨hsource, hlt⟩, htarget, hlt'⟩
    exact ⟨Prod.ext hsource.symm htarget.symm, hlt, hlt'⟩
  · rintro ⟨rfl, hlt, hlt'⟩
    exact ⟨⟨rfl, hlt⟩, rfl, hlt'⟩

/-- What is accepted is a proper topology. -/
theorem proper_of_accepted {net : Network}
    (h : Accepted T.nodes.length (T.links.map T.link) net) : T.Proper ∧ net = T.network := by
  have hline : ∀ line ∈ T.links, ∃ l, installed (T.link line) = some l := by
    intro line hline
    have hmem : installed (T.link line) ∈ (T.links.map T.link).map installed :=
      List.mem_map_of_mem (List.mem_map_of_mem hline)
    rw [h.links] at hmem
    obtain ⟨l, _, hl⟩ := List.mem_map.mp hmem
    exact ⟨l, hl.symm⟩
  have hlinks : net.links = T.links.map fun line => (line.source, line.target) := by
    refine (Option.some_injective _).list_map ?_
    rw [← h.links, List.map_map, List.map_map]
    refine List.map_congr_left fun line hmem => ?_
    obtain ⟨l, hl⟩ := hline line hmem
    exact hl.trans (congrArg some (installed_link.mp hl).1)
  have hlength : net.links.length = T.links.length := by rw [hlinks, List.length_map]
  have hnode : ∀ i node, net.realNodes[i]? = some node →
      node = i ∧ ∃ line ∈ T.links, line.source = i ∨ line.target = i := by
    intro i node hi
    obtain ⟨x, hx, hname, hvalue⟩ := h.realNodes i node hi
    exact number_of_end hx hvalue (h.length_realNodes ▸ (List.getElem?_eq_some_iff.mp hi).1) hname
  have hreal : net.realNodes = List.range T.nodes.length := by
    refine List.ext_getElem (by rw [h.length_realNodes, List.length_range]) fun i hi _ => ?_
    rw [List.getElem_range]
    exact (hnode i _ (List.getElem?_eq_getElem hi)).1
  constructor
  · refine ⟨fun hnil => h.ne_nil (by rw [hnil]; rfl), fun line hmem => ?_, fun i hi => ?_,
      hlength ▸ h.length_links⟩
    · obtain ⟨l, hl⟩ := hline line hmem
      exact (installed_link.mp hl).2
    · have hlt : i < net.realNodes.length := h.length_realNodes.symm ▸ hi
      exact (hnode i _ (List.getElem?_eq_getElem hlt)).2
  · have haddresses := h.addresses
    rw [hlength] at haddresses
    obtain ⟨realNodes, links, addresses⟩ := net
    exact congr (congr (congrArg Network.mk hreal) hlinks) haddresses

/-- A proper topology is accepted. -/
theorem Proper.accepted (h : T.Proper) (more : Text) : readNetwork (T.file more) = some T.network := by
  have hlt := T.nodes_lt
  obtain ⟨nodeMap, hmap, _⟩ := foldlM_exists (f := insertNodes) (fun _ => True)
    (l := T.links.map T.link)
    (s := ∅) (fun nodeMap link hlink _ => by
      obtain ⟨line, hline, rfl⟩ := List.mem_map.mp hlink
      obtain ⟨hsource, htarget⟩ := h.lt line hline
      exact ⟨_, insertNodes_eq_some.mpr ⟨_, _, extractU32_digitsOf_of_lt (by omega),
        extractU32_digitsOf_of_lt (by omega), rfl⟩, trivial⟩) trivial
  have hnumbered := Numbered.empty.foldlM hmap
  rw [List.nil_append] at hnumbered
  have hfound : ∀ i < T.nodes.length, nodeMap[UInt32.ofNat i]? = some (some i) := by
    intro i hi
    obtain ⟨line, hline, hor⟩ := h.linked i hi
    obtain ⟨number, ptr, hnumber, hptr⟩ := hnumbered.listed (digitsOf i, T.pointer i)
      (mem_ends.mpr ⟨line, hline, i, hor.imp Eq.symm Eq.symm, rfl⟩)
    rw [extractU32_digitsOf_of_lt (by omega)] at hnumber
    obtain rfl := Option.some.inj hnumber
    obtain ⟨x, hx, hname, rfl⟩ := hnumbered.of_listed _ _ hptr
    obtain ⟨line', hline', a, hor', rfl⟩ := mem_ends.mp hx
    have ha : a < T.nodes.length := by
      rcases hor' with rfl | rfl
      · exact (h.lt line' hline').1
      · exact (h.lt line' hline').2
    have hpointer : T.pointer a = some a := pointer_eq_some.mpr ⟨rfl, ha⟩
    rw [hptr, ← (number_of_end hx hpointer hi hname).1, hpointer]
  rw [readNetwork_eq_some, T.read_file]
  refine ⟨by simpa using h.ne_nil, ⟨nodeMap, hmap, ?_⟩, ?_, ?_⟩
  · exact List.map_congr_left fun i hi => hfound i (List.mem_range.mp hi)
  · rw [network, List.map_map, List.map_map]
    exact List.map_congr_left fun line hline => installed_link.mpr ⟨rfl, h.lt line hline⟩
  · rw [Ipv4AddressHelper.assigned_eq, network, List.length_map, if_pos h.length_le]

end TopologyText

/-- **A topology file is read as it is written.** `main` accepts it exactly if
every node is in a link and every number is that of a node, and there are
addresses for the links; then the network is the one that is written. -/
theorem readNetwork_file (T : TopologyText) (more : Text) (net : Network) :
    readNetwork (T.file more) = some net ↔ T.Proper ∧ net = T.network := by
  constructor
  · intro h
    have hacc := readNetwork_accepted h
    rw [T.read_file] at hacc
    exact TopologyText.proper_of_accepted hacc
  · rintro ⟨h, rfl⟩
    exact h.accepted more

/-- Nothing else on a line. -/
def Rest.none : Rest where
  text := []
  head_space := by simp
  in_line := by simp

def PairLine.tab (source target : ℕ) : PairLine where
  source := source
  gap := [9]
  gap_ne_nil := by simp
  gap_space := by simp [space]
  target := target
  rest := .none

/-- The file of `lineSetup`. -/
def lineText : TopologyText where
  first := .tab 3 2
  nodes := [.none, .none, .none]
  links := [.tab 0 1, .tab 1 2]
  totnode := rfl
  totlink := rfl
  nodes_lt := by decide
  links_lt := by decide

theorem lineText_proper : lineText.Proper where
  ne_nil := by simp [lineText]
  lt := by simp [lineText, PairLine.tab]
  linked i hi := by
    match i, hi with
    | 0, _ => exact ⟨_, List.mem_cons_self, Or.inl rfl⟩
    | 1, _ => exact ⟨_, List.mem_cons_self, Or.inr rfl⟩
    | 2, _ => exact ⟨_, List.mem_cons_of_mem _ List.mem_cons_self, Or.inr rfl⟩
  length_le := by decide

example : lineText.file [] = [51, 9, 50, 10, 48, 10, 49, 10, 50, 10, 48, 9, 49, 10, 49, 9, 50, 10] := by
  decide

theorem network_of_file_line : ∃ S : Setup, S.totalNodes = 3 ∧ Addressed S.topology ∧
    ∀ i, S.helloTimeout i = 2000 ∧ S.maxTTL i = 16 := by
  obtain ⟨S, htotal, _, _, _, _, hattributes, haddressed⟩ := network_of_file
    (lineText_proper.accepted []) (by simp [lineText, TopologyText.network, PairLine.tab])
    (by simp [lineText, TopologyText.network]) (fun _ => 2000) (fun _ => 16)
  rw [lineText.read_file] at htotal
  exact ⟨S, htotal, haddressed, hattributes⟩

end Ns3Routing.SimulatorMain
