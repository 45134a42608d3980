import Mathlib.Data.List.ReduceOption
import Memorai.Connectors.ChatGpt
import Memorai.Graph.Successors

/-! The way a walk takes through the nodes of a conversation. -/
namespace Memorai.Connectors.ChatGpt
open Wire Results Memorai.Graph

/-- The node under an id, if there is an object there. -/
def nodeOf (mapping : Fields) (nodeId : String) : Option Fields :=
  match mapping.lookup nodeId with
  | some (.obj node) => some node
  | _ => none

def messageOf (mapping : Fields) (nodeId : String) : Option Fields := (nodeOf mapping nodeId).bind message?

def nextOf (mapping : Fields) (nodeId : String) : Option String := (nodeOf mapping nodeId).bind lastChild

def childrenOf (node : Fields) : List String :=
  match node.lookup "children" with
  | some (.arr children) => children.filterMap Json.string?
  | _ => []

def parentOf (node : Fields) : Option String := (node.lookup "parent").bind Json.string?

/-- Lists and dicts are not hashable. -/
def hashable : Option Json → Bool
  | some (.arr _) => false
  | some (.obj _) => false
  | _ => true

/-- Every parent can be looked up. -/
def Hashable (mapping : Fields) : Prop := ∀ entry ∈ mapping, ∀ node, entry.2 = .obj node → hashable (node.lookup "parent") = true

/-- A node without a parent in the mapping. -/
def isRoot (mapping : Fields) : String × Json → Bool
  | (_, .obj node) => (parentOf node).all (fun parent => parent ∉ mapping.map Prod.fst)
  | _ => false

/-- The first root, or else the first key. -/
def start (mapping : Fields) : Option String :=
  ((mapping.filter (isRoot mapping)).map Prod.fst).head?.or (mapping.map Prod.fst).head?

/-- Parents and children agree, all children are there, and there is one root. -/
structure Tree (mapping : Fields) (root : String) : Prop where
  keys : (mapping.map Prod.fst).Nodup
  nodes : ∀ nodeId ∈ mapping.map Prod.fst, ∃ node, nodeOf mapping nodeId = some node
  child : ∀ nodeId node child, nodeOf mapping nodeId = some node → child ∈ childrenOf node →
    ∃ node', nodeOf mapping child = some node' ∧ parentOf node' = some nodeId
  parent : ∀ nodeId node parent, nodeOf mapping nodeId = some node → parentOf node = some parent →
    ∃ node', nodeOf mapping parent = some node' ∧ nodeId ∈ childrenOf node'
  root : (mapping.filter (isRoot mapping)).map Prod.fst = [root]

/-- Distinct nodes, each the last child of the one before. In a tree they lead from the root to a leaf. -/
structure Line (mapping : Fields) (ids : List String) : Prop where
  known : ∀ nodeId ∈ ids, nodeId ∈ mapping.map Prod.fst
  nodup : ids.Nodup
  head : ids.head? = start mapping
  descends : ids.IsChain (fun nodeId child => nextOf mapping nodeId = some child)
  ends : ∀ nodeId ∈ ids.getLast?, ∀ child, nextOf mapping nodeId = some child → child ∈ ids ∨ child ∉ mapping.map Prod.fst
  leaf : ∀ root, Tree mapping root →
    ids.head? = some root ∧ ∀ nodeId ∈ ids.getLast?, ∃ node, nodeOf mapping nodeId = some node ∧ childrenOf node = []

def unseen (mapping : Fields) (seen : List String) : Fields := mapping.filter (fun entry => decide (entry.1 ∉ seen))

/-- The loop of `walk_linear` as it stands, given up after so many steps. -/
def loop (mapping : Fields) : Nat → List String → Option String → Option (List Fields)
  | _, _, none => some []
  | 0, _, some _ => none
  | steps + 1, seen, some nodeId =>
    if nodeId ∈ seen then some []
    else
      match mapping.lookup nodeId with
      | some (.obj node) =>
        (loop mapping steps (nodeId :: seen) (lastChild node)).map (fun messages => (message? node).toList ++ messages)
      | _ => some []

/-- `walk_linear` with as many steps as that. -/
def walkWithin (steps : Nat) (mapping : Fields) : Except Raised (Option (List Fields)) := do
  if mapping = [] then .ok (some []) else
  let ids ← roots mapping
  .ok (loop mapping steps [] ids.head?)

/-- The walk comes to an end, and it has the messages along a line. -/
def WalksLine (mapping : Fields) : Prop :=
  ∃ ids, Line mapping ids ∧ walkLinear mapping = .ok (ids.filterMap (messageOf mapping)) ∧
    ∀ steps, mapping.length < steps → walkWithin steps mapping = .ok (some (ids.filterMap (messageOf mapping)))

section Steps
variable {mapping node : Fields} {nodeId : String}

theorem nodeOf_of_node (h : mapping.lookup nodeId = some (.obj node)) : nodeOf mapping nodeId = some node := by
  rw [nodeOf, h]

theorem nodeOf_of_none (h : ∀ node, mapping.lookup nodeId ≠ some (.obj node)) : nodeOf mapping nodeId = none := by
  rw [nodeOf]
  split
  · rename_i hnode
    exact absurd hnode (h _)
  · rfl

theorem lastChild_eq (node : Fields) : lastChild node = (childrenOf node).getLast? := by
  unfold lastChild childrenOf
  cases node.lookup "children" with
  | none => rfl
  | some children => cases children <;> rfl

theorem lookup_without {other : String} (h : other ≠ nodeId) : (without mapping nodeId).lookup other = mapping.lookup other := by
  have hkeys := Dict.lookup_filter_keys (fun k => decide (k ≠ nodeId)) mapping other
  rwa [if_pos (decide_eq_true h)] at hkeys

theorem keys_without (mapping : Fields) (nodeId : String) :
    (without mapping nodeId).map Prod.fst = others (mapping.map Prod.fst) nodeId := by
  rw [without, others, List.filter_map]
  rfl

/-- A walk goes from last child to last child, through what it has not seen. -/
theorem follow_eq_way {unseen : Fields} (h : ∀ k ∈ unseen.map Prod.fst, unseen.lookup k = mapping.lookup k) :
    follow unseen nodeId = (way (nextOf mapping) (unseen.map Prod.fst) nodeId).filterMap (messageOf mapping) := by
  induction unseen, nodeId using follow.induct with
  | case1 unseen nodeId node hnode ih =>
    have hkey : nodeId ∈ unseen.map Prod.fst := List.mem_map_of_mem (f := Prod.fst) (Dict.mem_of_lookup hnode)
    have hof : nodeOf mapping nodeId = some node := nodeOf_of_node (h nodeId hkey ▸ hnode)
    have hrest : ∀ k ∈ (without unseen nodeId).map Prod.fst, (without unseen nodeId).lookup k = mapping.lookup k := by
      intro k hk
      rw [keys_without, mem_others] at hk
      rw [lookup_without hk.2, h k hk.1]
    have hbelow : (lastChild node).elim [] (follow (without unseen nodeId)) = List.filterMap (messageOf mapping)
        ((lastChild node).elim [] (way (nextOf mapping) ((without unseen nodeId).map Prod.fst))) := by
      cases lastChild node with
      | none => rfl
      | some child => exact ih child hrest
    rw [follow_of_node hnode, way_of_mem hkey, List.filterMap_cons, messageOf, nextOf, hof, Option.bind_some, Option.bind_some,
      hbelow, keys_without]
    cases message? node <;> rfl
  | case2 unseen nodeId hnone =>
    rw [follow_of_none hnone]
    by_cases hkey : nodeId ∈ unseen.map Prod.fst
    · have hof : nodeOf mapping nodeId = none := nodeOf_of_none (h nodeId hkey ▸ hnone)
      rw [way_of_mem hkey, List.filterMap_cons, messageOf, nextOf, hof]
      rfl
    · rw [way_of_not_mem hkey]
      rfl

theorem unseen_cons (mapping : Fields) (seen : List String) (nodeId : String) :
    unseen mapping (nodeId :: seen) = without (unseen mapping seen) nodeId := by
  rw [without, unseen, unseen, List.filter_filter]
  exact List.filter_congr (fun entry _ => by simp)

theorem lookup_unseen (mapping : Fields) (seen : List String) (nodeId : String) :
    (unseen mapping seen).lookup nodeId = if nodeId ∈ seen then none else mapping.lookup nodeId := by
  rw [unseen, Dict.lookup_filter_keys (fun k => decide (k ∉ seen))]
  by_cases h : nodeId ∈ seen <;> simp [h]

/-- The loop needs no more steps than there are unseen nodes. -/
theorem loop_eq_follow {steps : Nat} {seen : List String} (h : (unseen mapping seen).length < steps) :
    loop mapping steps seen (some nodeId) = some (follow (unseen mapping seen) nodeId) := by
  induction steps generalizing seen nodeId with
  | zero => exact absurd h (Nat.not_lt_zero _)
  | succ steps ih =>
    have hlookup := lookup_unseen mapping seen nodeId
    rw [loop]
    split_ifs at hlookup ⊢ with hseen
    · rw [follow_of_none (fun node => by rw [hlookup]; exact nofun)]
    · split
      · rename_i node hnode
        rw [hnode] at hlookup
        have hlt : (unseen mapping (nodeId :: seen)).length < steps := by
          rw [unseen_cons]
          exact (length_without_lt hlookup).trans_le (Nat.lt_succ_iff.mp h)
        rw [follow_of_node hlookup, ← unseen_cons]
        cases lastChild node with
        | none => simp [loop]
        | some child => rw [ih hlt, Option.map_some, Option.elim_some]
      · rename_i hnone
        rw [follow_of_none (fun node hnode => hnone node (hlookup ▸ hnode))]

end Steps

section Roots
variable {mapping : Fields}

theorem parentless_of_hashable {node : Fields} (h : hashable (node.lookup "parent") = true) :
    parentless mapping (node.lookup "parent") = .ok ((parentOf node).all (fun parent => parent ∉ mapping.map Prod.fst)) := by
  rw [parentOf]
  cases hparent : node.lookup "parent" with
  | none => rfl
  | some parent =>
    rw [hparent] at h
    cases parent with
    | arr items => exact absurd h (by simp [hashable])
    | obj fields => exact absurd h (by simp [hashable])
    | str id => rfl
    | _ => rfl

theorem parentless_of_not_hashable {parent : Option Json} (h : ¬ hashable parent = true) :
    parentless mapping parent = .error .unhashable := by
  unfold hashable at h
  split at h
  · rfl
  · rfl
  · exact absurd rfl h

theorem rootOf_of_hashable (h : Hashable mapping) : ∀ entry ∈ mapping,
    rootOf mapping entry = .ok (if isRoot mapping entry = true then some entry.1 else none) := by
  rintro ⟨nodeId, node⟩ hentry
  cases node with
  | obj node =>
    rw [rootOf, parentless_of_hashable (h _ hentry node rfl), isRoot]
    rfl
  | _ => rfl

/-- The roots can be told as long as every parent can be looked up. -/
theorem roots_of_hashable (h : Hashable mapping) : ∃ ids, roots mapping = .ok ids ∧ ids.head? = start mapping := by
  have hfound := mapM_eq_ok (rootOf_of_hashable h)
  have hreduce : ∀ entries : Fields, (entries.map (fun entry => if isRoot mapping entry = true then some entry.1 else none)).reduceOption
      = (entries.filter (isRoot mapping)).map Prod.fst := by
    intro entries
    induction entries with
    | nil => rfl
    | cons entry entries ih =>
      rw [List.map_cons, List.filter_cons]
      split_ifs
      · rw [List.reduceOption_cons_of_some, ih, List.map_cons]
      · rw [List.reduceOption_cons_of_none, ih]
  refine ⟨_, by rw [roots, hfound]; rfl, ?_⟩
  rw [hreduce, start]
  split_ifs with hempty
  · rw [hempty, List.head?_nil, Option.none_or]
  · obtain ⟨root, rest, hroots⟩ := List.exists_cons_of_ne_nil hempty
    rw [hroots, List.head?_cons, Option.some_or]

theorem hashable_of_roots {ids : List String} (h : roots mapping = .ok ids) : Hashable mapping := by
  obtain ⟨found, hfound, -⟩ := bind_ok h
  rintro ⟨nodeId, _⟩ hentry node rfl
  obtain ⟨root, hroot⟩ := exists_mapM_iff.mp ⟨found, hfound⟩ _ hentry
  by_contra hbad
  rw [rootOf, parentless_of_not_hashable hbad] at hroot
  exact absurd hroot nofun

end Roots

section Lines
variable {mapping : Fields}

theorem nextOf_eq_some_iff {nodeId child : String} : nextOf mapping nodeId = some child ↔
    ∃ node, nodeOf mapping nodeId = some node ∧ (childrenOf node).getLast? = some child := by
  rw [nextOf, Option.bind_eq_some_iff]
  simp only [lastChild_eq]

theorem mem_keys_of_nodeOf {nodeId : String} {node : Fields} (h : nodeOf mapping nodeId = some node) :
    nodeId ∈ mapping.map Prod.fst := by
  unfold nodeOf at h
  split at h
  · rename_i hnode
    exact List.mem_map_of_mem (f := Prod.fst) (Dict.mem_of_lookup hnode)
  · exact absurd h nofun

theorem Tree.parent_of_next {root nodeId child : String} (h : Tree mapping root) (hnext : nextOf mapping nodeId = some child) :
    ∃ node, nodeOf mapping child = some node ∧ parentOf node = some nodeId := by
  obtain ⟨node, hnode, hlast⟩ := nextOf_eq_some_iff.mp hnext
  exact h.child nodeId node child hnode (List.mem_of_getLast? hlast)

/-- The root is nobody's child. -/
theorem Tree.next_ne_root {root : String} (h : Tree mapping root) (nodeId : String) : nextOf mapping nodeId ≠ some root := by
  intro hnext
  obtain ⟨node, hnode, hparent⟩ := h.parent_of_next hnext
  obtain ⟨⟨_, value⟩, hentry, rfl⟩ := List.mem_map.mp (h.root ▸ List.mem_singleton_self root)
  obtain ⟨hmem, hroot⟩ := List.mem_filter.mp hentry
  obtain ⟨parent, hof, -⟩ := nextOf_eq_some_iff.mp hnext
  rw [nodeOf, Dict.lookup_of_mem h.keys hmem] at hnode
  cases value with
  | obj fields =>
    obtain rfl := Option.some.inj hnode
    rw [isRoot, hparent, Option.all_some, decide_eq_true_eq] at hroot
    exact hroot (mem_keys_of_nodeOf hof)
  | _ => exact absurd hnode nofun

/-- The way from the start is a line. -/
theorem line_way {first : String} (h : start mapping = some first) (hfirst : first ∈ mapping.map Prod.fst) :
    Line mapping (way (nextOf mapping) (mapping.map Prod.fst) first) where
  known _ := mem_unseen_of_mem_way
  nodup := nodup_way
  head := by rw [head?_way hfirst, h]
  descends := isChain_way
  ends _ hlast _ := next_of_getLast?_way hlast
  leaf := by
    intro root htree
    have hroot : first = root := by
      rw [start, htree.root, List.head?_cons, Option.some_or] at h
      exact (Option.some.inj h).symm
    subst hroot
    refine ⟨head?_way hfirst, fun nodeId hlast => ?_⟩
    obtain ⟨node, hnode⟩ := htree.nodes nodeId (mem_unseen_of_mem_way (List.mem_of_getLast? hlast))
    have hnone : nextOf mapping nodeId = none := by
      refine next_of_getLast?_way_of_tree ?_ htree.next_ne_root ?_ hlast
      · intro b c d hb hc
        obtain ⟨node, hnode, hparent⟩ := htree.parent_of_next hb
        obtain ⟨node', hnode', hparent'⟩ := htree.parent_of_next hc
        obtain rfl := Option.some.inj (hnode.symm.trans hnode')
        exact Option.some.inj (hparent.symm.trans hparent')
      · intro b _ c hc
        obtain ⟨node, hnode, _⟩ := htree.parent_of_next hc
        exact mem_keys_of_nodeOf hnode
    rw [nextOf, hnode, Option.bind_some, lastChild_eq, List.getLast?_eq_none_iff] at hnone
    exact ⟨node, hnode, hnone⟩

theorem walkWithin_eq {steps : Nat} (h : mapping.length < steps) : walkWithin steps mapping = (walkLinear mapping).map some := by
  have hall : unseen mapping [] = mapping := by simp [unseen]
  rw [walkWithin, walkLinear]
  split_ifs with hnil
  · rfl
  · cases roots mapping with
    | error e => rfl
    | ok ids =>
      cases hids : ids.head? with
      | none => simp [bind, Except.bind, Except.map, hids, loop]
      | some first =>
        have hloop : loop mapping steps [] (some first) = some (follow (unseen mapping []) first) := loop_eq_follow (hall.symm ▸ h)
        rw [hall] at hloop
        simp [bind, Except.bind, Except.map, hids, hloop]

theorem exists_start (h : mapping ≠ []) : ∃ first ∈ mapping.map Prod.fst, start mapping = some first := by
  rw [start]
  cases hroots : mapping.filter (isRoot mapping) with
  | nil =>
    obtain ⟨entry, rest, rfl⟩ := List.exists_cons_of_ne_nil h
    exact ⟨entry.1, by simp, rfl⟩
  | cons entry rest =>
    have hentry : entry ∈ mapping := (List.mem_filter.mp (hroots ▸ List.mem_cons_self)).1
    exact ⟨entry.1, List.mem_map_of_mem hentry, rfl⟩

theorem line_nil : Line [] [] where
  known := by simp
  nodup := List.nodup_nil
  head := rfl
  descends := List.isChain_nil
  ends := by simp
  leaf _ htree := absurd htree.root nofun

theorem hashable_of_walkLinear {messages : List Fields} (h : walkLinear mapping = .ok messages) : Hashable mapping := by
  rw [walkLinear] at h
  split_ifs at h with hnil
  · intro entry hentry
    exact absurd (hnil ▸ hentry) List.not_mem_nil
  · obtain ⟨roots, hroots, -⟩ := bind_ok h
    exact hashable_of_roots hroots

theorem walkLinear_of_start {first : String} (h : Hashable mapping) (hnil : mapping ≠ []) (hstart : start mapping = some first) :
    walkLinear mapping = .ok ((way (nextOf mapping) (mapping.map Prod.fst) first).filterMap (messageOf mapping)) := by
  obtain ⟨ids, hroots, hhead⟩ := roots_of_hashable h
  rw [walkLinear, if_neg hnil, hroots, ← follow_eq_way (fun _ _ => rfl)]
  show Except.ok (ids.head?.elim [] (follow mapping)) = _
  rw [hhead, hstart, Option.elim_some]

theorem walkLinear_of_hashable (h : Hashable mapping) :
    ∃ ids, Line mapping ids ∧ walkLinear mapping = .ok (ids.filterMap (messageOf mapping)) := by
  by_cases hnil : mapping = []
  · subst hnil
    exact ⟨[], line_nil, rfl⟩
  · obtain ⟨first, hfirst, hstart⟩ := exists_start hnil
    exact ⟨_, line_way hstart hfirst, walkLinear_of_start h hnil hstart⟩

/-- The walk has the messages along a line exactly if no parent is a list or a dict. -/
theorem walks_line_iff (mapping : Fields) : WalksLine mapping ↔ Hashable mapping := by
  constructor
  · rintro ⟨ids, -, hwalk, -⟩
    exact hashable_of_walkLinear hwalk
  · intro h
    obtain ⟨ids, hids, hwalk⟩ := walkLinear_of_hashable h
    refine ⟨ids, hids, hwalk, fun steps hsteps => ?_⟩
    rw [walkWithin_eq hsteps, hwalk]
    rfl

/-- A node that names a list as its parent ends the walk before it begins. -/
theorem list_parent_stops_walk : ¬ ∀ mapping, WalksLine mapping := by
  intro h
  obtain ⟨ids, -, hwalk, -⟩ := h [("m1", .obj [("parent", .arr [])])]
  have hraised : walkLinear [("m1", .obj [("parent", .arr [])])] = .error .unhashable := rfl
  exact absurd (hraised.symm.trans hwalk) nofun

/-- A message on the branch that survived. -/
def OnBranch (mapping : Fields) (message : Fields) : Prop :=
  ∃ first nodeId, start mapping = some first ∧
    Relation.ReflTransGen (fun nodeId child => nextOf mapping nodeId = some child) first nodeId ∧
    messageOf mapping nodeId = some message

theorem mem_keys_of_nextOf {nodeId child : String} (h : nextOf mapping nodeId = some child) : nodeId ∈ mapping.map Prod.fst := by
  obtain ⟨node, hnode, -⟩ := nextOf_eq_some_iff.mp h
  exact mem_keys_of_nodeOf hnode

/-- Nothing but a node of the mapping leads on. -/
theorem reach_known_iff {first nodeId : String} (h : nodeId ∈ mapping.map Prod.fst) :
    first ∈ mapping.map Prod.fst ∧ Relation.ReflTransGen
      (fun nodeId child => nextOf mapping nodeId = some child ∧ child ∈ mapping.map Prod.fst) first nodeId ↔
        Relation.ReflTransGen (fun nodeId child => nextOf mapping nodeId = some child) first nodeId := by
  constructor
  · rintro ⟨-, hreach⟩
    exact Relation.ReflTransGen.mono (fun _ _ hstep => hstep.1) _ _ hreach
  · intro hreach
    induction hreach with
    | refl => exact ⟨h, .refl⟩
    | tail hreach hstep ih =>
      obtain ⟨hfirst, hknown⟩ := ih (mem_keys_of_nextOf hstep)
      exact ⟨hfirst, hknown.tail ⟨hstep, h⟩⟩

theorem mem_walkLinear_iff {messages : List Fields} (h : walkLinear mapping = .ok messages) {message : Fields} :
    message ∈ messages ↔ OnBranch mapping message := by
  by_cases hnil : mapping = []
  · subst hnil
    obtain rfl : [] = messages := Except.ok.inj h
    refine iff_of_false List.not_mem_nil ?_
    rintro ⟨first, _, hstart, -⟩
    exact absurd hstart nofun
  · obtain ⟨first, hfirst, hstart⟩ := exists_start hnil
    obtain rfl := Except.ok.inj ((walkLinear_of_start (hashable_of_walkLinear h) hnil hstart).symm.trans h)
    rw [List.mem_filterMap]
    constructor
    · rintro ⟨nodeId, hmem, hmessage⟩
      exact ⟨first, nodeId, hstart, (reach_known_iff (mem_unseen_of_mem_way hmem)).mp (mem_way_iff.mp hmem), hmessage⟩
    · rintro ⟨first', nodeId, hstart', hreach, hmessage⟩
      obtain rfl := Option.some.inj (hstart.symm.trans hstart')
      obtain ⟨node, hnode, -⟩ := Option.bind_eq_some_iff.mp hmessage
      exact ⟨nodeId, mem_way_iff.mpr ((reach_known_iff (mem_keys_of_nodeOf hnode)).mpr hreach), hmessage⟩

end Lines
end Memorai.Connectors.ChatGpt
