import ImportClosure.Proofs.Firsts
import ImportClosure.Proofs.Registry

/-!
# What registrations make of a registry

A registry can be read off everything that it was told, as a log (`Registration`): the nodes, the roots and the uses are
the first ones of the log with their identity, or with their ends (`Registry.nodes_ofLog`, `Registry.roots_ofLog`,
`Registry.uses_ofLog`). So whatever is asked afterwards has its answer in the log (`registry_logs`).
-/

namespace ImportClosure

/-- What a registry is told. -/
inductive Registration (α : Type) where
  /-- A module is a root. -/
  | root (m : α)
  /-- A module is the entry. -/
  | entry (m : α)
  /-- A module is used by another. -/
  | use (used user : α) (tag : UsageTag) (reason : String) (at_ : Option SourceRef)

/-- What uses are told apart by: the modules that they connect and the tag. -/
def Use.ends (u : Use) : Identity × Identity × UsageTag :=
  (u.user.identity, u.used.identity, u.tag)

/-- The first key of a list that stands for the identity of a key. -/
def ModuleKey.firstOf (keys : List ModuleKey) (k : ModuleKey) : ModuleKey :=
  (keys.find? fun other => decide (other.identity = k.identity)).getD k

/-- A use with the first keys of a list in place of its own. -/
def Use.spelled (keys : List ModuleKey) (u : Use) : Use :=
  { u with user := ModuleKey.firstOf keys u.user, used := ModuleKey.firstOf keys u.used }

namespace Registration

variable {α : Type} [Handle α]

/-- The module that becomes a root. -/
def root? : Registration α → Option α
  | root m | entry m => some m
  | use .. => none

/-- The use, as it is told. -/
def use? : Registration α → Option Use
  | root _ | entry _ => none
  | use used user tag reason at_ => some ⟨Handle.key user, Handle.key used, tag, reason, at_⟩

/-- The keys, in the order in which they are noted. -/
def keys : Registration α → List ModuleKey
  | root m | entry m => [Handle.key m]
  | use used user .. => [Handle.key user, Handle.key used]

end Registration

/-! ## Keys that stand for others -/

section Spelling

variable {k : ModuleKey} {ks : List ModuleKey} {u : Use}

/-- The first module of an identity has this identity. -/
theorem ModuleKey.identity_firstOf (ks : List ModuleKey) (k : ModuleKey) : (k.firstOf ks).identity = k.identity := by
  unfold firstOf
  cases h : ks.find? fun other => decide (other.identity = k.identity) with
  | none => rfl
  | some other =>
    have hk := List.find?_some h
    exact of_decide_eq_true hk

/-- A key that is there keeps its first spelling, whatever comes behind. -/
theorem ModuleKey.firstOf_append (h : k ∈ ks) (more : List ModuleKey) : k.firstOf (ks ++ more) = k.firstOf ks := by
  have hsome : (ks.find? fun other => decide (other.identity = k.identity)).isSome :=
    List.find?_isSome.2 ⟨k, h, by simp⟩
  rw [firstOf, firstOf, List.find?_append, Option.or_of_isSome hsome]

/-- How a use is spelled does not change when more modules are noted behind its own. -/
theorem Use.spelled_append (huser : u.user ∈ ks) (hused : u.used ∈ ks) (more : List ModuleKey) :
    u.spelled (ks ++ more) = u.spelled ks := by
  rw [spelled, spelled, ModuleKey.firstOf_append huser, ModuleKey.firstOf_append hused]

/-- A use connects the same modules, however they are spelled. -/
@[simp] theorem Use.ends_spelled (ks : List ModuleKey) (u : Use) : (u.spelled ks).ends = u.ends := by
  simp [ends, spelled, ModuleKey.identity_firstOf]

/-- A use connects the ends of another one if they have the same ends. -/
theorem Use.connects_ends_iff {v : Use} :
    u.connects v.user.identity v.used.identity v.tag = true ↔ u.ends = v.ends := by
  rw [connects_iff, ends, ends, Prod.mk.injEq, Prod.mk.injEq]

/-- A key among the first ones is the one that stands for its identity. -/
theorem ModuleKey.eq_firstOf {key : ModuleKey} (h : key ∈ firsts identity ks) (hid : key.identity = k.identity) :
    key = k.firstOf ks := by
  rw [firstOf, ← hid, mem_firsts.1 h, Option.getD_some]

end Spelling

namespace Registry

/-! ## Nodes and uses -/

variable {α : Type} [Handle α] {r : Registry α} {i j : Identity} {u : Use}

/-- A node is made for a key whose identity is new among the keys. -/
theorem nodes_ensureNode_of_firsts {g : UsageGraph} {ks : List ModuleKey} (h : g.nodes = firsts ModuleKey.identity ks)
    (k : ModuleKey) : (g.ensureNode k).2.nodes = firsts ModuleKey.identity (ks ++ [k]) := by
  rw [UsageGraph.nodes_ensureNode, h, firsts_concat, if_congr mem_keys_firsts rfl rfl]

/-- The two keys of a use get their nodes one after the other. -/
theorem nodes_connect_of_firsts {g : UsageGraph} {ks : List ModuleKey} (h : g.nodes = firsts ModuleKey.identity ks)
    (user used : ModuleKey) (tag : UsageTag) (reason : String) (at_ : Option SourceRef) :
    (g.connect user used tag reason at_).nodes = firsts ModuleKey.identity (ks ++ [user, used]) := by
  rw [UsageGraph.nodes_connect, nodes_ensureNode_of_firsts (nodes_ensureNode_of_firsts h user) used, List.append_assoc]
  rfl

/-- The users of a module are found at its node. -/
theorem usersOf_eq (r : Registry α) (j : Identity) : r.usersOf j = r.uses.filter fun u => u.used.isOf j :=
  UsageGraph.usesAt_eq (fun _ _ hu => (UsageEdge.use?_eq_some_iff.1 hu).2.1) j

theorem usedBy_eq (r : Registry α) (i : Identity) : r.usedBy i = r.uses.filter fun u => u.user.isOf i :=
  UsageGraph.usesAt_eq (fun _ _ hu => (UsageEdge.use?_eq_some_iff.1 hu).1) i

/-- The users of a module are told by the uses that lead to it. -/
theorem mem_usersOf : u ∈ r.usersOf j ↔ u ∈ r.uses ∧ u.used.identity = j := by
  rw [usersOf_eq, List.mem_filter, ModuleKey.isOf_iff]

/-- What a module uses is told by the uses that start from it. -/
theorem mem_usedBy : u ∈ r.usedBy i ↔ u ∈ r.uses ∧ u.user.identity = i := by
  rw [usedBy_eq, List.mem_filter, ModuleKey.isOf_iff]

/-! ## Logs -/

variable {log : List (Registration α)} {m : α}

/-- A registry that is told something more. -/
def apply (r : Registry α) : Registration α → Registry α
  | .root m => (r.registerRoot m).2
  | .entry m => r.setEntry m
  | .use used user tag reason at_ => r.addUse used user tag reason at_

/-- The registry that a log makes. -/
def ofLog (log : List (Registration α)) : Registry α :=
  log.foldl apply .empty

/-- One more registration acts on what the others have come to. -/
@[simp] theorem ofLog_concat (log : List (Registration α)) (x : Registration α) :
    ofLog (log ++ [x]) = (ofLog log).apply x := by
  simp [ofLog]

/-! ## Roots -/

/-- A module becomes the last root if its identity is new among the roots. -/
theorem roots_addRoot_of_firsts {roots : List α} (h : r.roots = firsts Handle.identity roots) :
    (r.addRoot m).roots = firsts Handle.identity (roots ++ [m]) := by
  have hroot : r.isRoot (Handle.identity m) = true ↔ Handle.identity m ∈ roots.map Handle.identity := by
    rw [isRoot_iff_mem, h, mem_keys_firsts]
  rw [firsts_concat, roots_addRoot_eq, h, if_congr hroot rfl rfl]

/-- The roots are the first modules of the log that were made roots. -/
theorem roots_ofLog (log : List (Registration α)) :
    (ofLog log).roots = firsts Handle.identity (log.filterMap Registration.root?) := by
  induction log using List.reverseRecOn with
  | nil => rfl
  | append_singleton log x ih =>
    rw [ofLog_concat, List.filterMap_append]
    cases x with
    | root m => exact roots_addRoot_of_firsts ih
    | entry m => exact roots_addRoot_of_firsts ih
    | use used user tag reason at_ =>
      rw [show [Registration.use used user tag reason at_].filterMap Registration.root? = [] from rfl, List.append_nil,
        ← ih]
      exact roots_addUse

/-- The roots are the modules that were registered as roots. -/
theorem isRoot_ofLog :
    (ofLog log).isRoot i = true ↔ i ∈ (log.filterMap Registration.root?).map Handle.identity := by
  rw [isRoot_iff_mem, roots_ofLog, mem_keys_firsts]

/-! ## Keys of a log -/

/-- The key of a module that was made a root is in the log. -/
theorem key_mem_of_mem_roots (h : m ∈ log.filterMap Registration.root?) :
    Handle.key m ∈ log.flatMap Registration.keys := by
  obtain ⟨x, hx, hroot⟩ := List.mem_filterMap.1 h
  refine List.mem_flatMap.2 ⟨x, hx, ?_⟩
  cases x with
  | root m' | entry m' =>
    obtain rfl : m' = m := Option.some.inj hroot
    exact List.mem_singleton.2 rfl
  | use => cases hroot

/-- The keys of a use are in the log. -/
theorem keys_mem_of_mem_uses (h : u ∈ log.filterMap Registration.use?) :
    u.user ∈ log.flatMap Registration.keys ∧ u.used ∈ log.flatMap Registration.keys := by
  obtain ⟨x, hx, huse⟩ := List.mem_filterMap.1 h
  cases x with
  | root | entry => cases huse
  | use used user tag reason at_ =>
    obtain rfl := Option.some.inj huse
    exact ⟨List.mem_flatMap.2 ⟨_, hx, List.mem_cons_self⟩,
      List.mem_flatMap.2 ⟨_, hx, List.mem_cons_of_mem _ List.mem_cons_self⟩⟩

/-- What becomes a root has a node, which was there before if a root of the same identity was. -/
theorem nodes_addRoot_ofLog (h : (ofLog log).graph.nodes = firsts ModuleKey.identity (log.flatMap Registration.keys))
    (m : α) : ((ofLog log).addRoot m).graph.nodes =
      firsts ModuleKey.identity (log.flatMap Registration.keys ++ [Handle.key m]) := by
  unfold addRoot
  split
  next hroot =>
    obtain ⟨m', hm', hid⟩ := List.mem_map.1 (isRoot_ofLog.1 hroot)
    have hmem : (Handle.key m).identity ∈ (log.flatMap Registration.keys).map ModuleKey.identity :=
      List.mem_map.2 ⟨Handle.key m', key_mem_of_mem_roots hm', hid⟩
    rw [firsts_concat, if_pos hmem, h]
  next => exact nodes_ensureNode_of_firsts h _

/-- Every identity goes by the first key of the log that stands for it. -/
theorem nodes_ofLog (log : List (Registration α)) :
    (ofLog log).graph.nodes = firsts ModuleKey.identity (log.flatMap Registration.keys) := by
  induction log using List.reverseRecOn with
  | nil => rfl
  | append_singleton log x ih =>
    rw [ofLog_concat, List.flatMap_append, List.flatMap_singleton]
    cases x with
    | root m => exact nodes_addRoot_ofLog ih m
    | entry m => exact nodes_addRoot_ofLog ih m
    | use used user tag reason at_ => exact nodes_connect_of_firsts ih _ _ _ _ _

/-! ## Uses of a log -/

/-- Keys that come later change the spelling of no use. -/
theorem map_spelled_append {told : List Use} {ks : List ModuleKey} (h : ∀ u ∈ told, u.user ∈ ks ∧ u.used ∈ ks)
    (more : List ModuleKey) : (firsts Use.ends told).map (Use.spelled (ks ++ more)) =
      (firsts Use.ends told).map (Use.spelled ks) := by
  refine List.map_congr_left fun u hu => ?_
  obtain ⟨huser, hused⟩ := h u (List.mem_of_find?_eq_some (mem_firsts.1 hu))
  exact Use.spelled_append huser hused more

/-- A use becomes the newest one if its ends are new among the uses. -/
theorem uses_connect_of_firsts {g : UsageGraph} {told : List Use} {ks : List ModuleKey}
    (hnodes : g.nodes = firsts ModuleKey.identity ks)
    (huses : g.uses = ((firsts Use.ends told).map (Use.spelled ks)).reverse)
    (hin : ∀ u ∈ told, u.user ∈ ks ∧ u.used ∈ ks) (v : Use) :
    (g.connect v.user v.used v.tag v.reason v.sourceRef).uses =
      ((firsts Use.ends (told ++ [v])).map (Use.spelled (ks ++ [v.user, v.used]))).reverse := by
  obtain ⟨u, hmem, huser, hmem', hused, htag, hreason, hat, hnew⟩ :=
    g.uses_connect v.user v.used v.tag v.reason v.sourceRef
  rw [nodes_connect_of_firsts hnodes] at hmem hmem'
  rw [← map_spelled_append hin [v.user, v.used]] at huses
  generalize ks ++ [v.user, v.used] = ks' at hmem hmem' huses ⊢
  -- the new use has the keys of its nodes
  have hspelled : u = v.spelled ks' := by
    rw [Use.spelled, ← ModuleKey.eq_firstOf hmem huser, ← ModuleKey.eq_firstOf hmem' hused, ← htag, ← hreason, ← hat]
  have hknown : (g.uses.any fun w => w.connects v.user.identity v.used.identity v.tag) = true ↔
      v.ends ∈ told.map Use.ends := by
    rw [← mem_keys_firsts, huses]
    simp [Use.connects_ends_iff]
  rw [hnew, firsts_concat, if_congr hknown rfl rfl, huses, hspelled]
  split
  · rfl
  · rw [List.map_append, List.reverse_append]
    rfl

/-- The uses are the first ones of the log with their ends, the last one in front. -/
theorem uses_ofLog (log : List (Registration α)) : (ofLog log).uses =
    ((firsts Use.ends (log.filterMap Registration.use?)).map
      (Use.spelled (log.flatMap Registration.keys))).reverse := by
  induction log using List.reverseRecOn with
  | nil => rfl
  | append_singleton log x ih =>
    have hin : ∀ u ∈ log.filterMap Registration.use?, u.user ∈ log.flatMap Registration.keys ∧
        u.used ∈ log.flatMap Registration.keys := fun u hu => keys_mem_of_mem_uses hu
    rw [ofLog_concat, List.flatMap_append, List.flatMap_singleton, List.filterMap_append]
    cases x with
    | root m | entry m =>
      rw [show List.filterMap Registration.use? [_] = [] from rfl, List.append_nil, map_spelled_append hin, ← ih]
      exact uses_addRoot
    | use used user tag reason at_ =>
      exact uses_connect_of_firsts (nodes_ofLog log) ih hin ⟨Handle.key user, Handle.key used, tag, reason, at_⟩

/-! ## Answers -/

/-- A registry answers as a log of registrations says. -/
structure Logs (r : Registry α) (log : List (Registration α)) : Prop where
  /-- Each identity that was made a root is one with its first module, in the order in which they came. -/
  roots : r.roots = firsts Handle.identity (log.filterMap Registration.root?)
  isRoot : ∀ i, r.isRoot i = true ↔ i ∈ r.roots.map Handle.identity
  /-- To make a module a root says whether its identity is new among the roots. -/
  registered : ∀ m, (r.registerRoot m).1 = true ↔ Handle.identity m ∉ r.roots.map Handle.identity
  /-- The users of a module are the first uses with their ends that lead to it, newest first. -/
  usersOf : ∀ i, r.usersOf i =
    (((firsts Use.ends (log.filterMap Registration.use?)).filter fun u => u.used.isOf i).map
      (Use.spelled (log.flatMap Registration.keys))).reverse
  usedBy : ∀ i, r.usedBy i =
    (((firsts Use.ends (log.filterMap Registration.use?)).filter fun u => u.user.isOf i).map
      (Use.spelled (log.flatMap Registration.keys))).reverse
  /-- No two uses have the same ends. -/
  once : (r.uses.map Use.ends).Nodup
  /-- A use has the reason and the line that came first with its ends. -/
  first : ∀ u ∈ r.uses, ∃ told, (log.filterMap Registration.use?).find? (fun v => decide (v.ends = u.ends)) = some told ∧
    u.reason = told.reason ∧ u.sourceRef = told.sourceRef
  /-- From both of its ends a use looks the same. -/
  dual : ∀ i j u, u ∈ r.usersOf j ∧ u.user.identity = i ↔ u ∈ r.usedBy i ∧ u.used.identity = j
  count : r.usageCount = ((log.filterMap Registration.use?).map Use.ends).toFinset.card

/-- The uses of a registry are the first of each kind that were registered, the last one in front. -/
theorem ends_uses_ofLog (log : List (Registration α)) :
    (ofLog log).uses.map Use.ends = ((firsts Use.ends (log.filterMap Registration.use?)).map Use.ends).reverse := by
  rw [uses_ofLog, List.map_reverse, List.map_map]
  exact congrArg List.reverse (List.map_congr_left fun u _ => Use.ends_spelled _ u)

/-- What a use tells was told by the first that connects the same modules. -/
theorem exists_told_of_mem_uses (h : u ∈ (ofLog log).uses) : ∃ told,
    (log.filterMap Registration.use?).find? (fun v => decide (v.ends = u.ends)) = some told ∧
      u.reason = told.reason ∧ u.sourceRef = told.sourceRef := by
  rw [uses_ofLog, List.mem_reverse] at h
  obtain ⟨told, htold, rfl⟩ := List.mem_map.1 h
  rw [Use.ends_spelled]
  exact ⟨told, mem_firsts.1 htold, rfl, rfl⟩

/-- What is asked of the uses by the identity of an end may be asked before the keys are spelled. -/
theorem filter_uses_ofLog (log : List (Registration α)) {asks : Use → Bool}
    (h : ∀ u, asks (u.spelled (log.flatMap Registration.keys)) = asks u) : (ofLog log).uses.filter asks =
      (((firsts Use.ends (log.filterMap Registration.use?)).filter asks).map
        (Use.spelled (log.flatMap Registration.keys))).reverse := by
  rw [uses_ofLog, List.filter_reverse, List.filter_map, show asks ∘ Use.spelled _ = asks from funext h]

end Registry

/-- A registry that was told a sequence of registrations answers as their log says: it has the roots in the order in which
their identities came first, it has each use once, with its first reason and line, and whoever asks for the users of a
module or for what a module uses gets these, the newest one in front. -/
theorem registry_logs {α : Type} [Handle α] (log : List (Registration α)) : (Registry.ofLog log).Logs log where
  roots := Registry.roots_ofLog log
  isRoot _ := Registry.isRoot_iff_mem
  registered m := by
    rw [Registry.registerRoot, Bool.not_eq_true', ← Bool.not_eq_true, Registry.isRoot_iff_mem]
  usersOf i := (Registry.usersOf_eq _ i).trans <| Registry.filter_uses_ofLog log fun u => by
    rw [Bool.eq_iff_iff, ModuleKey.isOf_iff, ModuleKey.isOf_iff, Use.spelled, ModuleKey.identity_firstOf]
  usedBy i := (Registry.usedBy_eq _ i).trans <| Registry.filter_uses_ofLog log fun u => by
    rw [Bool.eq_iff_iff, ModuleKey.isOf_iff, ModuleKey.isOf_iff, Use.spelled, ModuleKey.identity_firstOf]
  once := by
    rw [Registry.ends_uses_ofLog, List.nodup_reverse]
    exact nodup_keys_firsts
  first _ := Registry.exists_told_of_mem_uses
  dual i j u := by
    rw [Registry.mem_usersOf, Registry.mem_usedBy]
    exact and_right_comm
  count := by
    rw [Registry.usageCount, ← UsageGraph.length_uses, ← List.length_map Use.ends, ← Registry.uses,
      Registry.ends_uses_ofLog, List.length_reverse, List.length_map, length_firsts]

end ImportClosure
