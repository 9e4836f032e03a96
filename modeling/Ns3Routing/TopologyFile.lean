import Ns3Routing.Addresses
import Ns3Routing.Ip
import Ns3Routing.Links
import Ns3Routing.Lib.Istream
import Ns3Routing.Setup

/-! # The topology file

`InetTopologyReader::Read` makes a node for each of so many lines, and links
between nodes it finds by the names in further lines. `main` then takes the
names for numbers, and stops unless every number of a node is the name of one
that has a link (`Network.named`). -/

namespace Ns3Routing.SimulatorMain

open Lib

/-- `TopologyReader::Link`. A node is the number of its line; `none` is the null
pointer. -/
structure TopologyLink where
  fromPtr : Option ℕ
  fromName : Text
  toPtr : Option ℕ
  toName : Text

/-- The variables of `Read`. -/
structure InetReader where
  topgen : Istream
  line : Text
  containerMap : Text → Option ℕ
  nodeMap : Text → Option ℕ
  source : Text
  target : Text
  links : List TopologyLink

namespace InetReader

/-- `getline`, and the line in the buffer. -/
def nextLine (st : InetReader) : InetReader × Istream :=
  let (line, topgen) := st.topgen.getline st.line
  ({ st with topgen, line }, .ofText line)

/-- One pass of the first loop. The coordinates are for the display only. -/
def readNode (st : InetReader) (i : ℕ) : InetReader :=
  let (st, lineBuffer) := st.nextLine
  let (n, _) := lineBuffer.readWord []
  { st with containerMap := Function.update st.containerMap n (some i) }

/-- `nodeMap[name]`, from `containerMap` when it is null. -/
def findNode (st : InetReader) (name : Text) : InetReader :=
  if st.nodeMap name = none then
    { st with nodeMap := Function.update st.nodeMap name (st.containerMap name) }
  else st

/-- One pass of the second loop. What is not read keeps its value. -/
def readLink (st : InetReader) : InetReader :=
  let (st, lineBuffer) := st.nextLine
  let (source, lineBuffer) := lineBuffer.readWord st.source
  let (target, _) := lineBuffer.readWord st.target
  let st := { st with source, target }
  if source ≠ [] ∧ target ≠ [] then
    let st := (st.findNode source).findNode target
    { st with links := st.links ++ [⟨st.nodeMap source, source, st.nodeMap target, target⟩] }
  else st

def readLinks : ℕ → InetReader → InetReader
  | 0, st => st
  | n + 1, st => if st.topgen.eof then st else readLinks n st.readLink

/-- Before the first loop, with `totnode` and `totlink`. -/
def header (file : Text) : InetReader × ℕ × ℕ :=
  let (line, topgen) := (Istream.ofText file).getline []
  let (totnode, lineBuffer) := (Istream.ofText line).readInt 0
  let (totlink, _) := lineBuffer.readInt 0
  (⟨topgen, line, fun _ => none, fun _ => none, [], [], []⟩, totnode.toNat, totlink.toNat)

/-- `Read`: how many nodes, and the links. -/
def read (file : Text) : ℕ × List TopologyLink :=
  let (st, totnode, totlink) := header file
  (totnode, (readLinks totlink ((List.range totnode).foldl readNode st)).links)

end InetReader

/-! ## What `main` makes of it -/

/-- What `main` sets up: the nodes in `realNodeContainer`, the nodes of each
link and their addresses. -/
structure Network where
  realNodes : List ℕ
  links : List (ℕ × ℕ)
  addresses : List (Ipv4Address × Ipv4Address)

abbrev NodeMap := Std.ExtTreeMap UInt32 (Option ℕ) compare

/-- One link in the loop that fills `nodeMap`. -/
def insertNodes (nodeMap : NodeMap) (link : TopologyLink) : Option NodeMap := do
  let source ← extractU32 link.fromName
  let target ← extractU32 link.toName
  some ((nodeMap.insertIfNew source link.fromPtr).insertIfNew target link.toPtr)

/-- `Install` on a link; a null pointer cannot be used. -/
def installed (link : TopologyLink) : Option (ℕ × ℕ) := do
  let source ← link.fromPtr
  let target ← link.toPtr
  some (source, target)

/-- The topology file, up to the addresses. `none` is a fatal error. -/
def readNetwork (file : Text) : Option Network := do
  let (totalNodes, links) := InetReader.read file
  if links.length = 0 then none
  else
    let nodeMap ← links.foldlM insertNodes (∅ : NodeMap)
    let realNodes ← (List.range totalNodes).mapM fun i => nodeMap[UInt32.ofNat i]?
    let links ← links.mapM installed
    let addresses ← Ipv4AddressHelper.assigned links.length
    some ⟨← realNodes.mapM id, links, addresses⟩

/-! ## What is read -/

/-- The nodes of the link, under their names. -/
def TopologyLink.ends (link : TopologyLink) : List (Text × Option ℕ) :=
  [(link.fromName, link.fromPtr), (link.toName, link.toPtr)]

namespace InetReader
variable {st : InetReader} {n : ℕ} {containerMap : Text → Option ℕ}

/-- The nodes of the first `n` lines, by their names. -/
structure Names (containerMap : Text → Option ℕ) (n : ℕ) : Prop where
  lt : ∀ x i, containerMap x = some i → i < n
  inj : ∀ x y i, containerMap x = some i → containerMap y = some i → x = y

/-- The maps, and the links so far. -/
structure Found (containerMap : Text → Option ℕ) (st : InetReader) : Prop where
  same : st.containerMap = containerMap
  nodeMap : ∀ x, st.nodeMap x = none ∨ st.nodeMap x = containerMap x
  links : ∀ x ∈ st.links.flatMap TopologyLink.ends, x.2 = containerMap x.1

theorem Names.readNode (h : Names st.containerMap n) : Names (st.readNode n).containerMap (n + 1) := by
  show Names (Function.update st.containerMap (st.nextLine.2.readWord []).1 (some n)) (n + 1)
  generalize (st.nextLine.2.readWord []).1 = name
  have hcases : ∀ x i, Function.update st.containerMap name (some n) x = some i →
      (x = name ∧ i = n) ∨ (st.containerMap x = some i ∧ i < n) := by
    intro x i hx
    by_cases hname : x = name
    · subst hname
      rw [Function.update_self] at hx
      exact Or.inl ⟨rfl, (Option.some.inj hx).symm⟩
    · rw [Function.update_of_ne hname] at hx
      exact Or.inr ⟨hx, h.lt x i hx⟩
  refine ⟨fun x i hx => ?_, fun x y i hx hy => ?_⟩
  · rcases hcases x i hx with ⟨_, rfl⟩ | ⟨_, hlt⟩
    · exact Nat.lt_succ_self _
    · exact hlt.trans (Nat.lt_succ_self _)
  · rcases hcases x i hx with ⟨rfl, rfl⟩ | ⟨hx, hlt⟩ <;>
      rcases hcases y _ hy with ⟨rfl, hi⟩ | ⟨hy, hlt'⟩
    · rfl
    · exact absurd hlt' (lt_irrefl _)
    · exact absurd (hi ▸ hlt) (lt_irrefl _)
    · exact h.inj x y i hx hy

/-- After the first loop. -/
theorem found_nodes (hmap : st.containerMap = fun _ => none) (hnode : st.nodeMap = fun _ => none)
    (hlinks : st.links = []) (n : ℕ) :
    Names ((List.range n).foldl readNode st).containerMap n ∧
      ((List.range n).foldl readNode st).nodeMap = (fun _ => none) ∧
      ((List.range n).foldl readNode st).links = [] := by
  induction n with
  | zero =>
    refine ⟨⟨fun x i hx => ?_, fun x _ i hx => ?_⟩, hnode, hlinks⟩
    · rw [List.range_zero, List.foldl_nil, hmap] at hx
      cases hx
    · rw [List.range_zero, List.foldl_nil, hmap] at hx
      cases hx
  | succ n ih =>
    rw [List.range_succ, List.foldl_append, List.foldl_cons, List.foldl_nil]
    exact ⟨ih.1.readNode, ih.2.1, ih.2.2⟩

theorem Found.findNode (h : Found containerMap st) (name : Text) :
    Found containerMap (st.findNode name) ∧ (st.findNode name).nodeMap name = containerMap name ∧
      (∀ x, st.nodeMap x = containerMap x → (st.findNode name).nodeMap x = containerMap x) := by
  rw [InetReader.findNode]
  split
  · have hname : Function.update st.nodeMap name (st.containerMap name) name = containerMap name := by
      rw [Function.update_self, h.same]
    have hother : ∀ x, x ≠ name →
        Function.update st.nodeMap name (st.containerMap name) x = st.nodeMap x :=
      fun x hx => Function.update_of_ne hx _ _
    refine ⟨⟨h.same, fun x => ?_, h.links⟩, hname, fun x hx => ?_⟩
    · by_cases hx : x = name
      · exact Or.inr (hx ▸ hname)
      · exact (h.nodeMap x).imp (hother x hx).trans (hother x hx).trans
    · by_cases hx' : x = name
      · exact hx' ▸ hname
      · exact (hother x hx').trans hx
  · rename_i hsome
    exact ⟨h, (h.nodeMap name).resolve_left hsome, fun _ hx => hx⟩

theorem Found.readLink (h : Found containerMap st) : Found containerMap st.readLink := by
  have hnext : Found containerMap st.nextLine.1 := ⟨h.same, h.nodeMap, h.links⟩
  rw [InetReader.readLink]
  dsimp only
  generalize (st.nextLine.2.readWord st.nextLine.1.source).1 = source
  generalize ((st.nextLine.2.readWord st.nextLine.1.source).2.readWord st.nextLine.1.target).1 = target
  have hread : Found containerMap { st.nextLine.1 with source, target } :=
    ⟨hnext.same, hnext.nodeMap, hnext.links⟩
  split
  · obtain ⟨hfirst, hsource, _⟩ := hread.findNode source
    obtain ⟨hboth, htarget, hkeep⟩ := hfirst.findNode target
    refine ⟨hboth.same, hboth.nodeMap, fun x hx => ?_⟩
    rw [List.flatMap_append, List.flatMap_singleton] at hx
    rcases List.mem_append.mp hx with hx | hx
    · exact hboth.links x hx
    · rcases List.mem_pair.mp hx with rfl | rfl
      · exact hkeep source hsource
      · exact htarget
  · exact hread

theorem Found.readLinks (h : Found containerMap st) (n : ℕ) :
    Found containerMap (InetReader.readLinks n st) := by
  induction n generalizing st with
  | zero => exact h
  | succ n ih =>
    rw [InetReader.readLinks]
    split
    · exact h
    · exact ih h.readLink

/-- The nodes of the links are those of the lines with their names. -/
theorem read_found (file : Text) : ∃ containerMap : Text → Option ℕ, Names containerMap (read file).1 ∧
    ∀ x ∈ (read file).2.flatMap TopologyLink.ends, x.2 = containerMap x.1 := by
  have hstart : (header file).1.containerMap = fun _ => none := rfl
  obtain ⟨hnames, hnode, hlinks⟩ := found_nodes hstart rfl rfl (header file).2.1
  have hfound : Found ((List.range (header file).2.1).foldl readNode (header file).1).containerMap
      ((List.range (header file).2.1).foldl readNode (header file).1) :=
    ⟨rfl, fun x => Or.inl (by rw [hnode]), fun x hx => by rw [hlinks] at hx; cases hx⟩
  exact ⟨_, hnames, (hfound.readLinks (header file).2.2).links⟩

end InetReader

/-! ## What `main` accepts -/

/-- `nodeMap`, with these ends of links in it. -/
structure Numbered (ends : List (Text × Option ℕ)) (nodeMap : NodeMap) : Prop where
  listed : ∀ x ∈ ends, ∃ i ptr, extractU32 x.1 = some i ∧ nodeMap[i]? = some ptr
  of_listed : ∀ i ptr, nodeMap[i]? = some ptr → ∃ x ∈ ends, extractU32 x.1 = some i ∧ x.2 = ptr

section Numbers
variable {ends : List (Text × Option ℕ)} {nodeMap nodeMap' : NodeMap} {links : List TopologyLink}

theorem Numbered.empty : Numbered [] ∅ where
  listed := by simp
  of_listed i ptr h := by simp at h

theorem Numbered.insertIfNew (h : Numbered ends nodeMap) {name : Text} {number : UInt32}
    (hname : extractU32 name = some number) (ptr : Option ℕ) :
    Numbered (ends ++ [(name, ptr)]) (nodeMap.insertIfNew number ptr) := by
  constructor
  · intro x hx
    rcases List.mem_append.mp hx with hx | hx
    · obtain ⟨i, old, hi, hold⟩ := h.listed x hx
      refine ⟨i, old, hi, ?_⟩
      rw [getElem?_insertIfNew_eq, if_neg, hold]
      rintro ⟨rfl, hnone⟩
      rw [hold] at hnone
      cases hnone
    · obtain rfl := List.mem_singleton.mp hx
      cases hold : nodeMap[number]? with
      | none => exact ⟨number, ptr, hname, by rw [getElem?_insertIfNew_eq, if_pos ⟨rfl, hold⟩]⟩
      | some old =>
        refine ⟨number, old, hname, ?_⟩
        rw [getElem?_insertIfNew_eq, if_neg, hold]
        simp [hold]
  · intro i value hvalue
    rw [getElem?_insertIfNew_eq] at hvalue
    split at hvalue
    · rename_i hnew
      obtain rfl := Option.some.inj hvalue
      exact ⟨_, List.mem_append_right _ (List.mem_singleton_self _), hnew.1 ▸ hname, rfl⟩
    · obtain ⟨x, hx, hi, hptr⟩ := h.of_listed i value hvalue
      exact ⟨x, List.mem_append_left _ hx, hi, hptr⟩

theorem insertNodes_eq_some {link : TopologyLink} : insertNodes nodeMap link = some nodeMap' ↔
    ∃ source target, extractU32 link.fromName = some source ∧ extractU32 link.toName = some target ∧
      (nodeMap.insertIfNew source link.fromPtr).insertIfNew target link.toPtr = nodeMap' := by
  simp [insertNodes, Option.bind_eq_bind, Option.bind_eq_some_iff]

theorem Numbered.link (h : Numbered ends nodeMap) {link : TopologyLink}
    (hlink : insertNodes nodeMap link = some nodeMap') : Numbered (ends ++ link.ends) nodeMap' := by
  obtain ⟨source, target, hsource, htarget, rfl⟩ := insertNodes_eq_some.mp hlink
  have hboth := (h.insertIfNew hsource link.fromPtr).insertIfNew htarget link.toPtr
  rwa [List.append_assoc] at hboth

theorem Numbered.foldlM (h : Numbered ends nodeMap)
    (hlinks : links.foldlM insertNodes nodeMap = some nodeMap') :
    Numbered (ends ++ links.flatMap TopologyLink.ends) nodeMap' := by
  induction links generalizing ends nodeMap with
  | nil =>
    obtain rfl := Option.some.inj hlinks
    rwa [List.flatMap_nil, List.append_nil]
  | cons link links ih =>
    obtain ⟨nodeMap₁, hlink, hrest⟩ := foldlM_cons_some hlinks
    rw [List.flatMap_cons, ← List.append_assoc]
    exact ih (h.link hlink) hrest

end Numbers

theorem installed_eq_some {link : TopologyLink} {l : ℕ × ℕ} :
    installed link = some l ↔ link.fromPtr = some l.1 ∧ link.toPtr = some l.2 := by
  obtain ⟨source, target⟩ := l
  simp [installed, Option.bind_eq_bind, Option.bind_eq_some_iff]

/-- What is known of a network `main` makes of these links. -/
structure Accepted (totalNodes : ℕ) (links : List TopologyLink) (net : Network) : Prop where
  lt : totalNodes < 2 ^ 31
  ne_nil : links ≠ []
  containerMap : ∃ containerMap, InetReader.Names containerMap totalNodes ∧
    ∀ x ∈ links.flatMap TopologyLink.ends, x.2 = containerMap x.1
  length_realNodes : net.realNodes.length = totalNodes
  /-- Each node is at an end of a link that has its number for a name. -/
  realNodes : ∀ i node, net.realNodes[i]? = some node →
    ∃ x ∈ links.flatMap TopologyLink.ends, extractU32 x.1 = some (UInt32.ofNat i) ∧ x.2 = some node
  numbers : ∀ x ∈ links.flatMap TopologyLink.ends, ∃ i, extractU32 x.1 = some i
  links : links.map installed = net.links.map some
  length_links : net.links.length ≤ 2 ^ 24
  addresses : net.addresses = (List.range net.links.length).map fun k =>
    (Ipv4AddressHelper.linkAddress k false, Ipv4AddressHelper.linkAddress k true)

theorem readNetwork_eq_some {file : Text} {net : Network} : readNetwork file = some net ↔
    (InetReader.read file).2 ≠ [] ∧
    (∃ nodeMap : NodeMap, (InetReader.read file).2.foldlM insertNodes ∅ = some nodeMap ∧
      (List.range (InetReader.read file).1).map (fun i => nodeMap[UInt32.ofNat i]?) =
        net.realNodes.map (some ∘ some)) ∧
    (InetReader.read file).2.map installed = net.links.map some ∧
    Ipv4AddressHelper.assigned net.links.length = some net.addresses := by
  obtain ⟨realNodes, links, addresses⟩ := net
  simp only [readNetwork, List.length_eq_zero_iff, Option.bind_eq_bind]
  by_cases hnil : (InetReader.read file).2 = []
  · simp [hnil]
  · simp only [if_neg hnil, Option.bind_eq_some_iff, mapM_eq_some, Option.some.injEq, Network.mk.injEq]
    constructor
    · rintro ⟨nodeMap, hmap, found, hfound, _, hlinks, _, hassigned, _, hreal, rfl, rfl, rfl⟩
      rw [List.map_id] at hreal
      subst hreal
      exact ⟨hnil, ⟨nodeMap, hmap, by simpa using hfound⟩, hlinks, hassigned⟩
    · rintro ⟨_, ⟨nodeMap, hmap, hfound⟩, hlinks, hassigned⟩
      exact ⟨nodeMap, hmap, realNodes.map some, by simpa using hfound, links, hlinks, addresses,
        hassigned, realNodes, by simp, rfl, rfl, rfl⟩

theorem read_size_lt (file : Text) : (InetReader.read file).1 < 2 ^ 31 := by
  have hint : ∀ s : Istream, (s.readInt 0).1 < 2 ^ 31 := by
    intro s
    rcases Istream.readNumber_eq_or Istream.toInt s 0 with hkept | ⟨negative, n, hread⟩
    · exact hkept.trans_lt (by decide)
    · exact hread.trans_lt (Istream.toInt_lt negative n)
  have hlt := hint (Istream.ofText ((Istream.ofText file).getline []).1)
  show ((Istream.ofText ((Istream.ofText file).getline []).1).readInt 0).1.toNat < 2 ^ 31
  omega

theorem readNetwork_accepted {file : Text} {net : Network} (h : readNetwork file = some net) :
    Accepted (InetReader.read file).1 (InetReader.read file).2 net := by
  obtain ⟨hne, ⟨nodeMap, hmap, hfound⟩, hlinks, hassigned⟩ := readNetwork_eq_some.mp h
  have hnumbered : Numbered ((InetReader.read file).2.flatMap TopologyLink.ends) nodeMap :=
    Numbered.empty.foldlM hmap
  have hlength : net.realNodes.length = (InetReader.read file).1 := by
    simpa using (congrArg List.length hfound).symm
  rw [Ipv4AddressHelper.assigned_eq] at hassigned
  split at hassigned
  · rename_i hle
    refine ⟨read_size_lt file, hne, InetReader.read_found file, hlength, fun i node hnode => ?_,
      fun x hx => ?_, hlinks, hle, (Option.some.inj hassigned).symm⟩
    · have hi : i < (InetReader.read file).1 := hlength ▸ (List.getElem?_eq_some_iff.mp hnode).1
      have hat := congrArg (·[i]?) hfound
      simp only [List.getElem?_map, List.getElem?_range hi, hnode, Option.map_some,
        Option.some.injEq] at hat
      exact hnumbered.of_listed _ _ hat
    · obtain ⟨i, _, hi, _⟩ := hnumbered.listed x hx
      exact ⟨i, hi⟩
  · cases hassigned

namespace Accepted
variable {totalNodes : ℕ} {links : List TopologyLink} {net : Network}

/-- The name of a node is its number, so no two numbers have the same one. -/
theorem nodup (h : Accepted totalNodes links net) : net.realNodes.Nodup := by
  obtain ⟨containerMap, hnames, hptr⟩ := h.containerMap
  have hnumber : ∀ i node, net.realNodes[i]? = some node → i < 2 ^ 32 ∧
      ∃ x, extractU32 x = some (UInt32.ofNat i) ∧ containerMap x = some node := by
    intro i node hnode
    obtain ⟨x, hx, hname, hvalue⟩ := h.realNodes i node hnode
    have hi := (List.getElem?_eq_some_iff.mp hnode).1
    have hlt := h.lt
    rw [h.length_realNodes] at hi
    exact ⟨by omega, x.1, hname, hptr x hx ▸ hvalue⟩
  rw [List.nodup_iff_getElem?_ne_getElem?]
  intro i j hij hj heq
  obtain ⟨hj, x, hx, hxnode⟩ := hnumber j _ (List.getElem?_eq_getElem hj)
  obtain ⟨hi, y, hy, hynode⟩ := hnumber i _ (heq.trans (List.getElem?_eq_getElem _))
  rw [hnames.inj y x _ hynode hxnode, hx, Option.some.injEq, ← UInt32.toNat_inj,
    UInt32.toNat_ofNat_of_lt' hi, UInt32.toNat_ofNat_of_lt' hj] at hy
  omega

/-- As many nodes as lines: every node is there. -/
theorem perm (h : Accepted totalNodes links net) : net.realNodes.Perm (List.range totalNodes) := by
  obtain ⟨containerMap, hnames, hptr⟩ := h.containerMap
  have hsub : net.realNodes ⊆ List.range totalNodes := by
    intro node hnode
    obtain ⟨i, hi⟩ := List.mem_iff_getElem?.mp hnode
    obtain ⟨x, hx, _, hvalue⟩ := h.realNodes i node hi
    exact List.mem_range.mpr (hnames.lt x.1 node (hptr x hx ▸ hvalue))
  refine (List.subperm_of_subset h.nodup hsub).perm_of_length_le ?_
  rw [List.length_range, h.length_realNodes]

theorem mem_realNodes (h : Accepted totalNodes links net) {x : Text × Option ℕ}
    (hx : x ∈ links.flatMap TopologyLink.ends) {node : ℕ} (hnode : x.2 = some node) :
    node ∈ net.realNodes := by
  obtain ⟨containerMap, hnames, hptr⟩ := h.containerMap
  exact h.perm.mem_iff.mpr (List.mem_range.mpr (hnames.lt x.1 node (hptr x hx ▸ hnode)))

/-- Wherever a node is at the end of a link, its name there is its number. -/
theorem number (h : Accepted totalNodes links net) {x : Text × Option ℕ}
    (hx : x ∈ links.flatMap TopologyLink.ends) {node : ℕ} (hnode : x.2 = some node) :
    extractU32 x.1 = some (UInt32.ofNat (net.realNodes.idxOf node)) := by
  obtain ⟨containerMap, hnames, hptr⟩ := h.containerMap
  have hindex := List.getElem?_idxOf (h.mem_realNodes hx hnode)
  obtain ⟨y, hy, hname, hvalue⟩ := h.realNodes _ node hindex
  rwa [hnames.inj x.1 y.1 node (hptr x hx ▸ hnode) (hptr y hy ▸ hvalue)]

end Accepted

/-! ## The network -/

/-- The node at an end of a link. -/
def Network.nodeAt (net : Network) (p : Fin net.links.length × Bool) : ℕ :=
  if p.2 then (net.links.get p.1).2 else (net.links.get p.1).1

namespace Accepted
variable {totalNodes : ℕ} {links : List TopologyLink} {net : Network}

theorem length_links_eq (h : Accepted totalNodes links net) : links.length = net.links.length := by
  simpa using congrArg List.length h.links

theorem link (h : Accepted totalNodes links net) {k : ℕ} {link : TopologyLink}
    (hlink : links[k]? = some link) : ∃ l, net.links[k]? = some l ∧
      link.fromPtr = some l.1 ∧ link.toPtr = some l.2 := by
  have hat := congrArg (·[k]?) h.links
  simp only [List.getElem?_map, hlink, Option.map_some] at hat
  obtain ⟨l, hl, hinstalled⟩ := Option.map_eq_some_iff.mp hat.symm
  exact ⟨l, hl, installed_eq_some.mp hinstalled.symm⟩

/-- The end of the link in the file. -/
theorem nodeAt (h : Accepted totalNodes links net) (p : Fin net.links.length × Bool) :
    ∃ x ∈ links.flatMap TopologyLink.ends, x.2 = some (net.nodeAt p) := by
  obtain ⟨k, side⟩ := p
  have hk : (k : ℕ) < links.length := k.isLt.trans_eq h.length_links_eq.symm
  have hmem : links[(k : ℕ)] ∈ links := List.getElem_mem hk
  obtain ⟨l, hl, hfrom, hto⟩ := h.link (List.getElem?_eq_getElem hk)
  obtain rfl : net.links.get k = l := by
    rw [List.getElem?_eq_getElem k.isLt] at hl
    exact Option.some.inj hl
  cases side with
  | false => exact ⟨_, List.mem_flatMap.mpr ⟨_, hmem, List.mem_cons_self⟩, hfrom⟩
  | true => exact ⟨_, List.mem_flatMap.mpr ⟨_, hmem, List.mem_cons_of_mem _ List.mem_cons_self⟩, hto⟩

theorem idxOf_lt (h : Accepted totalNodes links net) (p : Fin net.links.length × Bool) :
    net.realNodes.idxOf (net.nodeAt p) < totalNodes := by
  obtain ⟨x, hx, hnode⟩ := h.nodeAt p
  rw [← h.length_realNodes]
  exact List.idxOf_lt_length_iff.mpr (h.mem_realNodes hx hnode)

theorem exists_end (h : Accepted totalNodes links net) (i : Fin totalNodes) :
    ∃ p, net.realNodes.idxOf (net.nodeAt p) = i := by
  have hi : (i : ℕ) < net.realNodes.length := h.length_realNodes.symm ▸ i.isLt
  obtain ⟨x, hx, _, hnode⟩ := h.realNodes i _ (List.getElem?_eq_getElem hi)
  obtain ⟨link, hlink, hx⟩ := List.mem_flatMap.mp hx
  obtain ⟨k, hk⟩ := List.mem_iff_getElem?.mp hlink
  obtain ⟨l, hl, hfrom, hto⟩ := h.link hk
  obtain ⟨hlt, rfl⟩ := List.getElem?_eq_some_iff.mp hl
  rcases List.mem_pair.mp hx with rfl | rfl
  · refine ⟨(⟨k, hlt⟩, false), ?_⟩
    have heq : net.nodeAt (⟨k, hlt⟩, false) = net.realNodes[(i : ℕ)] :=
      Option.some.inj (hfrom.symm.trans hnode)
    rw [heq, h.nodup.idxOf_getElem]
  · refine ⟨(⟨k, hlt⟩, true), ?_⟩
    have heq : net.nodeAt (⟨k, hlt⟩, true) = net.realNodes[(i : ℕ)] :=
      Option.some.inj (hto.symm.trans hnode)
    rw [heq, h.nodup.idxOf_getElem]

/-- The network of the file. -/
def setup (h : Accepted totalNodes links net) (hself : ∀ l ∈ net.links, l.1 ≠ l.2)
    (hlinks : net.links.length ≤ 0x750000) (helloTimeout : ℕ → ℕ) (maxTTL : ℕ → UInt8) : Setup where
  totalNodes := totalNodes
  totalNodes_lt := h.lt
  totalLinks := net.links.length
  nodeOf p := ⟨net.realNodes.idxOf (net.nodeAt p), h.idxOf_lt p⟩
  nodeOf_ne l heq := by
    have hmem : net.nodeAt (l, false) ∈ net.realNodes := by
      rw [← List.idxOf_lt_length_iff, h.length_realNodes]
      exact h.idxOf_lt _
    exact hself _ (List.get_mem _ l) ((List.idxOf_inj hmem).mp (Fin.mk.inj heq))
  has_link i := (h.exists_end i).imp fun p hp => Fin.ext hp
  assign p := Ipv4AddressHelper.linkAddress p.1 p.2
  assign_inj p q heq := by
    obtain ⟨hmod, hside⟩ := Ipv4AddressHelper.linkAddress_eq_iff.mp heq
    have hp := p.1.isLt
    have hq := q.1.isLt
    exact Prod.ext (Fin.ext (by omega)) hside
  assign_ne p heq := by
    have hnat := Ipv4AddressHelper.toNat_linkAddress p.1 p.2
    have hp := p.1.isLt
    rw [heq] at hnat
    have hloop : Ipv4Address.getLoopback.toNat = 0x7F0000 * 2 ^ 8 + 1 := rfl
    split at hnat <;> omega
  helloTimeout i := helloTimeout i
  maxTTL i := maxTTL i

end Accepted

namespace Ipv4AddressHelper
variable {k : ℕ} {side : Bool}

theorem linkAddress_low (k : ℕ) (side : Bool) :
    (linkAddress k side).toNat % 2 ^ 8 = if side then 2 else 1 := by
  rw [toNat_linkAddress]
  split <;> omega

theorem linkAddress_host : linkAddress k side ||| ~~~subnetMask ≠ linkAddress k side := by
  intro heq
  have hlow := linkAddress_low k side
  have hor : (linkAddress k side).toNat % 2 ^ 8 =
      (linkAddress k side).toNat % 2 ^ 8 ||| (~~~subnetMask).toNat % 2 ^ 8 := by
    rw [← Nat.or_mod_two_pow, ← UInt32.toNat_or, heq]
  rw [hlow] at hor
  revert hor
  cases side <;> decide

theorem linkAddress_multicast (hk : k < 0x750000) : (linkAddress k side).isMulticast = false := by
  have hnat := toNat_linkAddress k side
  have hlo : (0xe0000000 : UInt32).toNat = 0xe0000000 := rfl
  simp only [Ipv4Address.isMulticast, Bool.and_eq_false_iff, decide_eq_false_iff_not,
    UInt32.le_iff_toNat_le, hlo]
  left
  split at hnat <;> omega

theorem linkAddress_unassigned : linkAddress k side ≠ Ipv4Address.unassigned := by
  intro heq
  have hlow := linkAddress_low k side
  rw [heq] at hlow
  revert hlow
  cases side <;> decide

end Ipv4AddressHelper

theorem Accepted.addressed {totalNodes : ℕ} {links : List TopologyLink} {net : Network}
    (h : Accepted totalNodes links net) (hself : ∀ l ∈ net.links, l.1 ≠ l.2)
    (hlinks : net.links.length ≤ 0x750000) (helloTimeout : ℕ → ℕ) (maxTTL : ℕ → UInt8) :
    Addressed (h.setup hself hlinks helloTimeout maxTTL).topology where
  host p := Ipv4AddressHelper.linkAddress_host
  multicast p := Ipv4AddressHelper.linkAddress_multicast (p.1.isLt.trans_le hlinks)
  loopback p := (h.setup hself hlinks helloTimeout maxTTL).assign_ne p
  main i := by
    have hmem := RealNodes.mainAddress_mem (R := (h.setup hself hlinks helloTimeout maxTTL).realNodes) i
    obtain ⟨hmem, hne⟩ := RealNodes.mem_addresses.mp hmem
    obtain ⟨p, _, hp⟩ := (Setup.mem_interfaces.mp hmem).resolve_left hne
    exact fun heq => Ipv4AddressHelper.linkAddress_unassigned (hp.trans heq)

theorem Accepted.linkList_setup {totalNodes : ℕ} {links : List TopologyLink} {net : Network}
    (h : Accepted totalNodes links net) (hself : ∀ l ∈ net.links, l.1 ≠ l.2)
    (hlinks : net.links.length ≤ 0x750000) (helloTimeout : ℕ → ℕ) (maxTTL : ℕ → UInt8) :
    (h.setup hself hlinks helloTimeout maxTTL).linkList =
      net.links.map fun l => (net.realNodes.idxOf l.1, net.realNodes.idxOf l.2) := by
  conv_rhs => rw [← List.map_get_finRange net.links, List.map_map]
  rfl

/-- The nodes at the ends of a link are there, under the names in the file. -/
theorem Accepted.ends {totalNodes : ℕ} {links : List TopologyLink} {net : Network}
    (h : Accepted totalNodes links net) {k : ℕ} {link : TopologyLink} (hlink : links[k]? = some link) :
    ∃ l, net.links[k]? = some l ∧ l.1 ∈ net.realNodes ∧ l.2 ∈ net.realNodes ∧
      extractU32 link.fromName = some (UInt32.ofNat (net.realNodes.idxOf l.1)) ∧
      extractU32 link.toName = some (UInt32.ofNat (net.realNodes.idxOf l.2)) := by
  obtain ⟨l, hl, hfrom, hto⟩ := h.link hlink
  have hmem := List.mem_of_getElem? hlink
  have hsource : (link.fromName, link.fromPtr) ∈ links.flatMap TopologyLink.ends :=
    List.mem_flatMap.mpr ⟨link, hmem, List.mem_cons_self⟩
  have htarget : (link.toName, link.toPtr) ∈ links.flatMap TopologyLink.ends :=
    List.mem_flatMap.mpr ⟨link, hmem, List.mem_cons_of_mem _ List.mem_cons_self⟩
  exact ⟨l, hl, h.mem_realNodes hsource hfrom, h.mem_realNodes htarget hto, h.number hsource hfrom,
    h.number htarget hto⟩

/-- **The network of a topology file.** Every file `main` accepts gives a network
whose nodes are numbered by their names. Its links are those of the file, and
the addresses are such that a node can tell its own from the others. -/
theorem network_of_file {file : Text} {net : Network} (h : readNetwork file = some net)
    (hself : ∀ l ∈ net.links, l.1 ≠ l.2) (hlinks : net.links.length ≤ 0x750000)
    (helloTimeout : ℕ → ℕ) (maxTTL : ℕ → UInt8) : ∃ S : Setup,
      S.totalNodes = (InetReader.read file).1 ∧
      net.realNodes.Perm (List.range S.totalNodes) ∧
      (InetReader.read file).2.map (fun l => (extractU32 l.fromName, extractU32 l.toName)) =
        S.linkList.map (fun l => (some (UInt32.ofNat l.1), some (UInt32.ofNat l.2))) ∧
      net.links.map (fun l => (some l.1, some l.2)) =
        S.linkList.map (fun l => (net.realNodes[l.1]?, net.realNodes[l.2]?)) ∧
      net.addresses = (List.finRange S.totalLinks).map
        (fun k => (S.assign (k, false), S.assign (k, true))) ∧
      (∀ i, S.helloTimeout i = helloTimeout i ∧ S.maxTTL i = maxTTL i) ∧ Addressed S.topology := by
  have hacc := readNetwork_accepted h
  refine ⟨hacc.setup hself hlinks helloTimeout maxTTL, rfl, hacc.perm, ?_, ?_, ?_, fun i => ⟨rfl, rfl⟩,
    hacc.addressed hself hlinks helloTimeout maxTTL⟩
  · rw [hacc.linkList_setup, List.map_map]
    refine List.ext_getElem? fun k => ?_
    rw [List.getElem?_map, List.getElem?_map]
    cases hlink : (InetReader.read file).2[k]? with
    | none =>
      rw [List.getElem?_eq_none_iff, hacc.length_links_eq, ← List.getElem?_eq_none_iff] at hlink
      rw [hlink]
      rfl
    | some link =>
      obtain ⟨l, hl, _, _, hsource, htarget⟩ := hacc.ends hlink
      rw [hl, Option.map_some, Option.map_some, hsource, htarget]
      rfl
  · rw [hacc.linkList_setup, List.map_map]
    refine List.map_congr_left fun l hl => ?_
    obtain ⟨k, hk⟩ := List.mem_iff_getElem?.mp hl
    have hlt : k < (InetReader.read file).2.length :=
      hacc.length_links_eq ▸ (List.getElem?_eq_some_iff.mp hk).1
    obtain ⟨l', hl', hsource, htarget, _⟩ := hacc.ends (List.getElem?_eq_getElem hlt)
    obtain rfl : l = l' := Option.some.inj (hk.symm.trans hl')
    simp [List.getElem?_idxOf hsource, List.getElem?_idxOf htarget]
  · rw [hacc.addresses, ← List.map_coe_finRange_eq_range, List.map_map]
    rfl

end Ns3Routing.SimulatorMain
