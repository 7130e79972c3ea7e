import Mathlib.Data.List.Induction
import TypedLowering.Imports
import TypedLowering.Proofs.Names.Fresh

/-!
# What the table of imports records

The table is read by `ImportTable.alias?` and written by `ImportTable.record`, for the whole module
and its members alike: asking for an import does one or the other (`importMember_cases`). `Records`
says that the table has just what was asked for, in the order in which it was asked for first, and
each of it once.
-/

namespace TypedLowering

/-! ## Order of first occurrences -/

/-- One more item is a first occurrence if it did not occur before. -/
theorem eraseDups_concat {α : Type} [DecidableEq α] (as : List α) (b : α) :
    (as ++ [b]).eraseDups = if b ∈ as then as.eraseDups else as.eraseDups ++ [b] := by
  rw [List.eraseDups_append]
  split <;> simp [List.removeAll, List.eraseDups_cons, *]

/-- First occurrences are distinct. -/
theorem eraseDups_nodup {α : Type} [DecidableEq α] (as : List α) : as.eraseDups.Nodup := by
  induction as using List.reverseRecOn with
  | nil => exact .nil
  | append_singleton as b ih =>
    rw [eraseDups_concat]
    split
    · exact ih
    · rename_i hb
      exact List.concat_eq_append ▸ ih.concat (mt List.mem_eraseDups.1 hb)

/-! ## Aliases in the table -/

/-- What an import stands for: the path of a module and a selector in it. The selector `*` is the
whole module. -/
abbrev ImportKey := String × String

namespace ModuleImports

/-- The local name of what a selector stands for. -/
def alias? (m : ModuleImports) (selector : String) : Option String :=
  if selector = "*" then m.whole else (m.members.find? (·.1 == selector)).map (·.2)

/-- Gives a local name to what a selector stands for. -/
def bind (m : ModuleImports) (selector name : String) : ModuleImports :=
  if selector = "*" then { m with whole := some name }
  else { m with members := m.members ++ [(selector, name)] }

/-- Binding another alias keeps the path. -/
@[simp] theorem bind_path (m : ModuleImports) (selector name : String) :
    (m.bind selector name).path = m.path := by
  rw [bind]
  split <;> rfl

/-- A binding gives the alias of its own selector, if that had none. -/
theorem alias?_bind {m : ModuleImports} {selector name other : String}
    (hnew : m.alias? selector = none) :
    (m.bind selector name).alias? other =
      if other = selector then some name else m.alias? other := by
  by_cases hstar : selector = "*"
  · subst hstar
    by_cases hother : other = "*" <;> simp [bind, alias?, hother]
  · by_cases hother : other = "*"
    · have hne : "*" ≠ selector := Ne.symm hstar
      simp [bind, alias?, hstar, hother, hne]
    · simp only [alias?, if_neg hstar, Option.map_eq_none_iff] at hnew
      simp only [bind, alias?, if_neg hstar, if_neg hother, List.find?_append]
      by_cases hsame : other = selector
      · subst hsame
        simp [hnew]
      · simp [hsame, Ne.symm hsame]

end ModuleImports

namespace ImportTable

/-- The local name that the table records. -/
def alias? (t : ImportTable) (key : ImportKey) : Option String :=
  (t.lookup key.1).bind (·.alias? key.2)

/-- Gives a local name to an import. -/
def record (t : ImportTable) (key : ImportKey) (name : String) : ImportTable :=
  t.update key.1 (·.bind key.2 name)

/-- An import has its alias already, or it gets one that is allocated as a root name. -/
theorem importMember_cases (t : ImportTable) (names : Scopes) (path selector : String) :
    (∃ name, t.alias? (path, selector) = some name ∧
        t.importMember names path selector = (name, t, names)) ∨
      t.alias? (path, selector) = none ∧ ∃ candidate,
        t.importMember names path selector = ((names.allocateRoot candidate).1,
          t.record (path, selector) (names.allocateRoot candidate).1,
          (names.allocateRoot candidate).2) := by
  by_cases hstar : selector = "*"
  · subst hstar
    rw [importMember, if_pos rfl, importWhole]
    have halias : t.alias? (path, "*") = (t.lookup path).bind (·.whole) := rfl
    rw [halias]
    cases (t.lookup path).bind (·.whole) with
    | some name => exact .inl ⟨name, rfl, rfl⟩
    | none => exact .inr ⟨rfl, pathStem path, rfl⟩
  · have halias : t.alias? (path, selector) =
        ((t.lookup path).bind fun m => m.members.find? (·.1 == selector)).map (·.2) := by
      rw [alias?]
      cases t.lookup path with
      | none => rfl
      | some m => exact if_neg hstar
    rw [importMember, if_neg hstar, halias]
    cases (t.lookup path).bind fun m => m.members.find? (·.1 == selector) with
    | some known => exact .inl ⟨known.2, rfl, rfl⟩
    | none =>
      refine .inr ⟨rfl, if selector = "default" then pathStem path else selector, ?_⟩
      simp only [record, ModuleImports.bind, if_neg hstar]

/-! ## Entries -/

section Update
variable {t : ImportTable} {path : String} {f : ModuleImports → ModuleImports}

/-- A path is in the table if an entry has it. -/
theorem mem_map_path_iff : path ∈ t.map (·.path) ↔ t.any (·.path == path) = true := by
  simp [List.mem_map]

/-- A path without an entry is not found. -/
theorem lookup_eq_none : t.lookup path = none ↔ path ∉ t.map (·.path) := by
  simp [lookup, List.mem_map]

/-- The entry that is found has the path. -/
theorem path_of_lookup {m : ModuleImports} (h : t.lookup path = some m) : m.path = path :=
  beq_iff_eq.1 (List.find?_some (p := fun m : ModuleImports => m.path == path) h)

/-- An update keeps the paths, and adds its own at the end if that was not there. -/
theorem map_path_update (hf : ∀ m, (f m).path = m.path) :
    (t.update path f).map (·.path) =
      if path ∈ t.map (·.path) then t.map (·.path) else t.map (·.path) ++ [path] := by
  rw [update]
  simp only [mem_map_path_iff]
  split
  · rw [List.map_map]
    refine List.map_congr_left fun m _ => ?_
    simp only [Function.comp_apply]
    split
    · exact hf m
    · rfl
  · rw [List.map_append, List.map_singleton, hf]

/-- An update changes the entry of its own path only. -/
theorem lookup_update (hf : ∀ m, (f m).path = m.path) (other : String) :
    (t.update path f).lookup other =
      if other = path then some (f ((t.lookup path).getD ⟨path, none, []⟩))
      else t.lookup other := by
  have hpath : ∀ m : ModuleImports, (if m.path == path then f m else m).path = m.path := by
    intro m
    split
    · exact hf m
    · rfl
  rw [update]
  split
  · rename_i hany
    have hfind : ((fun m : ModuleImports => m.path == other) ∘
        fun m => if m.path == path then f m else m) = (·.path == other) :=
      funext fun m => by rw [Function.comp_apply, hpath]
    simp only [lookup, List.find?_map, hfind]
    split
    · rename_i hother
      subst hother
      obtain ⟨m, hm⟩ := Option.ne_none_iff_exists'.1
        (mt lookup_eq_none.1 (not_not.2 (mem_map_path_iff.2 hany)))
      have hm' : t.find? (·.path == other) = some m := hm
      simp [hm', path_of_lookup hm]
    · rename_i hother
      cases hm : t.find? (·.path == other) with
      | none => rfl
      | some m =>
        have hne : ¬ (m.path == path) = true := fun hpath =>
          hother ((path_of_lookup hm).symm.trans (beq_iff_eq.1 hpath))
        exact congrArg some (if_neg hne)
  · rename_i hany
    have hnone := lookup_eq_none.2 (mt mem_map_path_iff.1 hany)
    simp only [lookup, List.find?_append]
    split
    · rename_i hother
      subst hother
      have hnone' : t.find? (·.path == other) = none := hnone
      simp [hnone', hf]
    · rename_i hother
      simp [hf, Ne.symm hother]

/-- The entries after an update. -/
theorem mem_update {m : ModuleImports} (h : m ∈ t.update path f) :
    m ∈ t ∧ m.path ≠ path ∨ ∃ m₀, m = f m₀ ∧ m₀.path = path ∧
      (m₀ ∈ t ∨ path ∉ t.map (·.path) ∧ m₀ = ⟨path, none, []⟩) := by
  rw [update] at h
  split at h
  · obtain ⟨m₀, hm₀, rfl⟩ := List.mem_map.1 h
    by_cases hpath : m₀.path = path
    · exact .inr ⟨m₀, if_pos (beq_iff_eq.2 hpath), hpath, .inl hm₀⟩
    · rw [if_neg (mt beq_iff_eq.1 hpath)]
      exact .inl ⟨hm₀, hpath⟩
  · rename_i hany
    have habsent := mt mem_map_path_iff.1 hany
    rcases List.mem_append.1 h with hm | hm
    · exact .inl ⟨hm, fun hpath => habsent (List.mem_map.2 ⟨m, hm, hpath⟩)⟩
    · exact .inr ⟨⟨path, none, []⟩, List.mem_singleton.1 hm, rfl, .inr ⟨habsent, rfl⟩⟩

end Update

/-- An alias that is recorded for an import that had none is the alias of this import only. -/
theorem alias?_record {t : ImportTable} {key : ImportKey} {name : String}
    (hnew : t.alias? key = none) (other : ImportKey) :
    (t.record key name).alias? other = if other = key then some name else t.alias? other := by
  obtain ⟨path, selector⟩ := key
  obtain ⟨path', selector'⟩ := other
  rw [alias?, record, lookup_update fun m => m.bind_path _ _]
  by_cases hpath : path' = path
  · subst hpath
    have hentry : ∀ s, ((t.lookup path').getD ⟨path', none, []⟩).alias? s =
        t.alias? (path', s) := by
      intro s
      rw [alias?]
      cases t.lookup path' with
      | none => by_cases hs : s = "*" <;> simp [ModuleImports.alias?, hs]
      | some m => rfl
    simp only [if_true, Option.bind_some, Prod.mk.injEq, true_and]
    rw [ModuleImports.alias?_bind ((hentry selector).trans hnew), hentry]
  · simp [hpath, alias?]

end ImportTable

/-! ## What the table records -/

/-- The members of the module at `path` among what was asked for. -/
def membersOf (asked : List ImportKey) (path : String) : List String :=
  asked.filterMap fun key => if key.1 = path ∧ key.2 ≠ "*" then some key.2 else none

/-- The members asked for are the selectors of a path, but for the whole module. -/
theorem mem_membersOf {asked : List ImportKey} {path selector : String} :
    selector ∈ membersOf asked path ↔ (path, selector) ∈ asked ∧ selector ≠ "*" := by
  simp only [membersOf, List.mem_filterMap, Option.ite_none_right_eq_some, Option.some.injEq]
  constructor
  · rintro ⟨⟨_, _⟩, hmem, ⟨rfl, hstar⟩, rfl⟩
    exact ⟨hmem, hstar⟩
  · rintro ⟨hmem, hstar⟩
    exact ⟨(path, selector), hmem, ⟨rfl, hstar⟩, rfl⟩

/-- One more request adds its selector to the members of its path. -/
theorem membersOf_concat {asked : List ImportKey} {key : ImportKey} {path : String} :
    membersOf (asked ++ [key]) path =
      if key.1 = path ∧ key.2 ≠ "*" then membersOf asked path ++ [key.2]
      else membersOf asked path := by
  rw [membersOf, List.filterMap_append]
  split
  · rename_i hown
    simp [membersOf, hown]
  · rename_i hown
    simp only [membersOf, List.filterMap_cons, if_neg hown, List.filterMap_nil, List.append_nil]

/-- The entry of a path has what was asked for there: the whole module if `*` was, and each other
member once, in the order in which they were asked for first. -/
structure ModuleImports.Records (m : ModuleImports) (asked : List ImportKey) : Prop where
  whole : m.whole.isSome ↔ (m.path, "*") ∈ asked
  members : m.members.map (·.1) = (membersOf asked m.path).eraseDups

/-- The table has an entry for each path that was asked for, in the order in which they were asked
for first. -/
structure ImportTable.Records (t : ImportTable) (asked : List ImportKey) : Prop where
  paths : t.map (·.path) = (asked.map (·.1)).eraseDups
  entries : ∀ m ∈ t, m.Records asked

namespace ModuleImports.Records

variable {m : ModuleImports} {asked : List ImportKey} {key : ImportKey}

/-- A path that was not asked for. -/
theorem empty {path : String} (h : path ∉ asked.map (·.1)) :
    (ModuleImports.mk path none []).Records asked where
  whole := ⟨nofun, fun hmem => absurd (List.mem_map_of_mem hmem) h⟩
  members := by
    have hnone : membersOf asked path = [] := List.eq_nil_iff_forall_not_mem.2 fun selector hmem =>
      h (List.mem_map_of_mem (mem_membersOf.1 hmem).1)
    exact (congrArg List.eraseDups hnone).symm

/-- The selectors that have an alias. -/
theorem isSome_alias? (h : m.Records asked) {selector : String} :
    (m.alias? selector).isSome ↔ (m.path, selector) ∈ asked := by
  rw [alias?]
  split
  · rename_i hstar
    rw [hstar, h.whole]
  · rename_i hstar
    have hmem : selector ∈ m.members.map (·.1) ↔ (m.path, selector) ∈ asked := by
      rw [h.members, List.mem_eraseDups, mem_membersOf]
      exact and_iff_left hstar
    rw [← hmem, Option.isSome_map, List.find?_isSome]
    simp [List.mem_map]

/-- Asking for the same again, or for something else, leaves the entry as it is. -/
theorem keep (h : m.Records asked) (hkey : key ∈ asked ∨ key.1 ≠ m.path) :
    m.Records (asked ++ [key]) where
  whole := by
    rw [h.whole, List.mem_append, List.mem_singleton]
    refine ⟨.inl, fun hmem => hmem.elim id fun hsame => ?_⟩
    exact hkey.elim (hsame ▸ ·) fun hpath => absurd (congrArg Prod.fst hsame).symm hpath
  members := by
    rw [h.members, membersOf_concat]
    split
    · rename_i hown
      have hasked := hkey.resolve_right (not_not.2 hown.1)
      rw [eraseDups_concat, if_pos (mem_membersOf.2 ⟨hown.1 ▸ hasked, hown.2⟩)]
    · rfl

/-- A new selector is bound. -/
theorem bind (h : m.Records asked) (hpath : m.path = key.1) (hkey : key ∉ asked) (name : String) :
    (m.bind key.2 name).Records (asked ++ [key]) := by
  by_cases hstar : key.2 = "*"
  · rw [ModuleImports.bind, if_pos hstar]
    refine ⟨iff_of_true rfl (List.mem_append_right _ (List.mem_singleton.2 ?_)), ?_⟩
    · exact Prod.ext hpath hstar.symm
    · dsimp only
      rw [h.members, membersOf_concat, if_neg fun hown => hown.2 hstar]
  · rw [ModuleImports.bind, if_neg hstar]
    refine ⟨?_, ?_⟩
    · dsimp only
      rw [h.whole, List.mem_append, List.mem_singleton]
      refine ⟨.inl, fun hmem => hmem.elim id fun hsame => absurd ?_ hstar⟩
      exact (congrArg Prod.snd hsame).symm
    · have hnew : key.2 ∉ membersOf asked m.path := fun hmem =>
        hkey (by rw [← Prod.eta key, ← hpath]; exact (mem_membersOf.1 hmem).1)
      dsimp only
      rw [List.map_append, h.members, membersOf_concat, if_pos ⟨hpath.symm, hstar⟩,
        eraseDups_concat, if_neg hnew, List.map_singleton]

end ModuleImports.Records

namespace ImportTable.Records

variable {t : ImportTable} {asked : List ImportKey} {key : ImportKey}

/-- The empty table records that nothing was asked for. -/
theorem nil : ImportTable.Records [] [] :=
  ⟨rfl, nofun⟩

/-- The paths in the table are those that were asked for. -/
theorem mem_map_path (h : t.Records asked) {path : String} :
    path ∈ t.map (·.path) ↔ path ∈ asked.map (·.1) := by
  rw [h.paths, List.mem_eraseDups]

/-- An import has an alias exactly if it was asked for. -/
theorem isSome_alias? (h : t.Records asked) : (t.alias? key).isSome ↔ key ∈ asked := by
  rw [alias?]
  rcases hm : t.lookup key.1 with _ | m
  · have habsent := mt h.mem_map_path.2 (lookup_eq_none.1 hm)
    exact ⟨nofun, fun hkey => absurd (List.mem_map_of_mem hkey) habsent⟩
  · rw [Option.bind_some, (h.entries m (List.mem_of_find?_eq_some hm)).isSome_alias?,
      path_of_lookup hm]

/-- Every entry binds something. -/
theorem exists_alias (h : t.Records asked) {m : ModuleImports} (hm : m ∈ t) :
    ∃ selector name, m.alias? selector = some name := by
  have hpath := h.mem_map_path.1 (List.mem_map_of_mem hm)
  obtain ⟨⟨path, selector⟩, hkey, rfl⟩ := List.mem_map.1 hpath
  exact ⟨selector, Option.isSome_iff_exists.1 ((h.entries m hm).isSome_alias?.2 hkey)⟩

/-- Asking for the same again changes nothing. -/
theorem keep (h : t.Records asked) (hkey : key ∈ asked) : t.Records (asked ++ [key]) where
  paths := by
    rw [h.paths, List.map_append, List.map_singleton, eraseDups_concat,
      if_pos (List.mem_map_of_mem hkey)]
  entries m hm := (h.entries m hm).keep (.inl hkey)

/-- What was not asked for before is recorded. -/
theorem record (h : t.Records asked) (hkey : key ∉ asked) (name : String) :
    (t.record key name).Records (asked ++ [key]) where
  paths := by
    rw [ImportTable.record, map_path_update fun m => m.bind_path _ _, List.map_append,
      List.map_singleton, eraseDups_concat, h.paths]
    simp only [List.mem_eraseDups]
  entries m hm := by
    rcases mem_update hm with ⟨hm, hpath⟩ | ⟨m₀, rfl, hpath, hm₀⟩
    · exact (h.entries m hm).keep (.inr (Ne.symm hpath))
    · refine ModuleImports.Records.bind ?_ hpath hkey name
      rcases hm₀ with hm₀ | ⟨habsent, rfl⟩
      · exact h.entries m₀ hm₀
      · exact .empty (mt h.mem_map_path.2 habsent)

end ImportTable.Records

end TypedLowering

/-!
## Imports over whole runs

While a file is lowered, imports are asked for between declarations that are entered and left and
names that are allocated, all of it on the same names. Whatever is asked for, and in whatever order,
the table records it once (`Accounts`), the same import is answered with the same alias, and
different ones with different aliases, each new to all scopes when it was first given
(`run_records_imports`).
-/

namespace TypedLowering

/-! ## Requests -/

/-- The names in use and the imports of a file. -/
structure Registry where
  names : Scopes
  imports : ImportTable

/-- What is asked for while a file is lowered. -/
inductive Request where
  | whole (path : String)
  | member (path selector : String)
  | root (candidate : String)
  | own (candidate : String)
  | enter (used : List String)
  /-- Any names may be handed back. -/
  | leave (parent : List String)
  deriving DecidableEq, Repr

/-- The import that is asked for. -/
def Request.import? : Request → Option ImportKey
  | .whole path => some (path, "*")
  | .member path selector => some (path, selector)
  | _ => none

namespace Registry

/-- The name that is given for a request, and the registry from then on. -/
def serve (r : Registry) : Request → Option String × Registry
  | .whole path =>
    let (name, imports, names) := r.imports.importWhole r.names path
    (some name, ⟨names, imports⟩)
  | .member path selector =>
    let (name, imports, names) := r.imports.importMember r.names path selector
    (some name, ⟨names, imports⟩)
  | .root candidate =>
    let (name, names) := r.names.allocateRoot candidate
    (some name, { r with names })
  | .own candidate =>
    let (name, names) := r.names.allocateLocal candidate
    (some name, { r with names })
  | .enter used => (none, { r with names := (r.names.enter used).2 })
  | .leave parent => (none, { r with names := r.names.leave parent })

/-- One request after the other. -/
def run (r : Registry) (requests : List Request) : Registry :=
  requests.foldl (fun r q => (r.serve q).2) r

/-- Requests of two parts are served one part after the other. -/
theorem run_append (r : Registry) (before after : List Request) :
    r.run (before ++ after) = (r.run before).run after :=
  List.foldl_append

/-- A name that no scope uses and that is not reserved. -/
structure IsNew (r : Registry) (name : String) : Prop where
  root : name ∉ r.names.root
  closed : name ∉ r.names.closed
  current : name ∉ r.names.current
  reserved : name ∉ r.names.reserved

/-- The whole module is asked for like a member of it. -/
theorem serve_eq_member {r : Registry} {q : Request} {key : ImportKey} (h : q.import? = some key) :
    r.serve q = r.serve (.member key.1 key.2) := by
  cases q with
  | whole | member =>
    obtain rfl := Option.some.inj h
    rfl
  | root | own | enter | leave => nomatch h

/-- What a request for an import does: it gives the alias that is recorded, or it records one that
is new and becomes a root name. -/
theorem serve_import {r : Registry} {q : Request} {key : ImportKey} (h : q.import? = some key) :
    (∃ name, r.imports.alias? key = some name ∧ r.serve q = (some name, r)) ∨
      r.imports.alias? key = none ∧ ∃ name, r.IsNew name ∧ r.serve q = (some name,
        ⟨{ r.names with root := Scopes.insert name r.names.root }, r.imports.record key name⟩) := by
  rw [serve_eq_member h, serve]
  rcases r.imports.importMember_cases r.names key.1 key.2 with
    ⟨name, hname, himport⟩ | ⟨hnone, candidate, himport⟩
  · exact .inl ⟨name, hname, by rw [himport]⟩
  · refine .inr ⟨hnone, _, ?_, by rw [himport]; rfl⟩
    have hnew := Names.preventConflicts_not_mem
      (r.names.reserved ++ r.names.root ++ r.names.closed ++ r.names.current)
      (Names.sanitize candidate)
    simp only [List.mem_append, not_or] at hnew
    exact ⟨hnew.1.1.2, hnew.1.2, hnew.2, hnew.1.1.1⟩

/-- What any other request does. -/
theorem serve_other {r : Registry} {q : Request} (h : q.import? = none) :
    (r.serve q).2.imports = r.imports ∧ ∀ x ∈ r.names.root, x ∈ (r.serve q).2.names.root := by
  cases q with
  | whole | member => nomatch h
  | root => exact ⟨rfl, fun x hx => Scopes.mem_insert.2 (.inr hx)⟩
  | own | enter | leave => exact ⟨rfl, fun x hx => hx⟩

/-- A recorded alias stays. -/
theorem serve_alias? {r : Registry} (q : Request) {key : ImportKey} {name : String}
    (h : r.imports.alias? key = some name) :
    (r.serve q).2.imports.alias? key = some name := by
  cases hq : q.import? with
  | none => rw [(serve_other hq).1, h]
  | some other =>
    rcases serve_import (r := r) hq with ⟨_, -, hserve⟩ | ⟨hnone, _, -, hserve⟩
    · rw [hserve, h]
    · rw [hserve, ImportTable.alias?_record hnone, if_neg, h]
      rintro rfl
      rw [hnone] at h
      nomatch h

/-- An alias stays the same, whatever is asked for later. -/
theorem run_alias? {r : Registry} (requests : List Request) {key : ImportKey} {name : String}
    (h : r.imports.alias? key = some name) : (r.run requests).imports.alias? key = some name := by
  induction requests generalizing r with
  | nil => exact h
  | cons q requests ih => exact ih (serve_alias? q h)

/-! ## The invariant -/

/-- What holds of a registry after these imports were asked for. -/
structure Accounts (r : Registry) (asked : List ImportKey) : Prop where
  records : r.imports.Records asked
  rooted : ∀ key name, r.imports.alias? key = some name → name ∈ r.names.root
  injective : ∀ key key' name, r.imports.alias? key = some name →
    r.imports.alias? key' = some name → key = key'

/-- At the start, nothing was asked for. -/
theorem Accounts.start (names : Scopes) : Accounts ⟨names, []⟩ [] :=
  ⟨.nil, nofun, nofun⟩

/-- A request is accounted for. -/
theorem Accounts.serve {r : Registry} {asked : List ImportKey} (h : r.Accounts asked)
    (q : Request) : (r.serve q).2.Accounts (asked ++ q.import?.toList) := by
  cases hq : q.import? with
  | none =>
    obtain ⟨himports, hroot⟩ := serve_other (r := r) hq
    rw [Option.toList_none, List.append_nil]
    refine ⟨himports ▸ h.records, ?_, himports ▸ h.injective⟩
    rw [himports]
    exact fun key name hname => hroot name (h.rooted key name hname)
  | some key =>
    rw [Option.toList_some]
    rcases serve_import (r := r) hq with ⟨name, hname, hserve⟩ | ⟨hnone, name, hnew, hserve⟩
    · rw [hserve]
      have hasked : key ∈ asked := h.records.isSome_alias?.1 (Option.isSome_of_eq_some hname)
      exact ⟨h.records.keep hasked, h.rooted, h.injective⟩
    · have hasked : key ∉ asked := fun hmem => by
        have hsome := h.records.isSome_alias?.2 hmem
        rw [hnone] at hsome
        nomatch hsome
      rw [hserve]
      -- The new alias is no root name yet, and all other aliases are.
      have hold : ∀ other, r.imports.alias? other ≠ some name := fun other hother =>
        hnew.root (h.rooted other name hother)
      refine ⟨h.records.record hasked name, fun other x hx => ?_, fun k k' x hk hk' => ?_⟩
      · rw [ImportTable.alias?_record hnone] at hx
        split at hx
        · exact Scopes.mem_insert.2 (.inl (Option.some.inj hx).symm)
        · exact Scopes.mem_insert.2 (.inr (h.rooted other x hx))
      · rw [ImportTable.alias?_record hnone] at hk hk'
        split at hk <;> split at hk'
        · rename_i hkey hkey'
          exact hkey.trans hkey'.symm
        · exact absurd (hk'.trans hk.symm) (hold k')
        · exact absurd (hk.trans hk'.symm) (hold k)
        · exact h.injective k k' x hk hk'

/-- Requests, one after the other, are accounted for. -/
theorem Accounts.run {r : Registry} {asked : List ImportKey} (h : r.Accounts asked)
    (requests : List Request) :
    (r.run requests).Accounts (asked ++ requests.filterMap Request.import?) := by
  induction requests generalizing r asked with
  | nil => exact (List.append_nil asked).symm ▸ h
  | cons q requests ih =>
    have hasked : (q :: requests).filterMap Request.import? =
        q.import?.toList ++ requests.filterMap Request.import? := by
      cases hq : q.import? with
      | none => exact List.filterMap_cons_none hq
      | some key => exact List.filterMap_cons_some hq
    rw [hasked, ← List.append_assoc]
    exact ih (h.serve q)

end Registry

/-- In a run from an empty table, every import is answered with the alias that the table records for
it at the end. The first time this is a new name. -/
theorem run_records_imports (names : Scopes) (requests : List Request) :
    let start : Registry := ⟨names, []⟩
    let final := start.run requests
    final.imports.Records (requests.filterMap Request.import?) ∧
    (∀ m ∈ final.imports, ∃ selector name, m.alias? selector = some name) ∧
    (∀ before q after key, requests = before ++ q :: after → q.import? = some key →
      ∃ name, ((start.run before).serve q).1 = some name ∧
        final.imports.alias? key = some name ∧
        (key ∉ before.filterMap Request.import? → (start.run before).IsNew name)) ∧
    ∀ key key' name, final.imports.alias? key = some name →
      final.imports.alias? key' = some name → key = key' := by
  intro start final
  have hstart : start.Accounts [] := .start names
  have hfinal : final.Accounts (requests.filterMap Request.import?) := hstart.run requests
  refine ⟨hfinal.records, fun m hm => hfinal.records.exists_alias hm, ?_, hfinal.injective⟩
  rintro before q after key rfl hq
  have hbefore : (start.run before).Accounts (before.filterMap Request.import?) :=
    hstart.run before
  have hrun : final = ((start.run before).serve q).2.run after :=
    start.run_append before (q :: after)
  rcases Registry.serve_import (r := start.run before) hq with
    ⟨name, hname, hserve⟩ | ⟨hnone, name, hnew, hserve⟩
  · refine ⟨name, by rw [hserve], ?_, fun hasked => ?_⟩
    · rw [hrun]
      exact Registry.run_alias? after (Registry.serve_alias? q hname)
    · exact absurd (hbefore.records.isSome_alias?.1 (Option.isSome_of_eq_some hname)) hasked
  · refine ⟨name, by rw [hserve], ?_, fun _ => hnew⟩
    rw [hrun]
    refine Registry.run_alias? after ?_
    rw [hserve, ImportTable.alias?_record hnone, if_pos rfl]

/-- Two modules that are asked for in turns, in and after a declaration. -/
def mixedRequests : List Request :=
  [.member "list.js" "map", .enter ["map_1"], .own "list", .whole "list.js",
    .member "map.js" "default", .leave [], .member "list.js" "map", .member "list.js" "*",
    .root "fold", .member "list.js" "fold"]

example :
    ((Registry.mk (.ofRoot ["map"] ["list"]) []).run mixedRequests).imports =
      [⟨"list.js", some "list_2", [("map", "map_1"), ("fold", "fold_1")]⟩,
        ⟨"map.js", none, [("default", "map_2")]⟩] := by
  rfl

/-- Imports asked for between other requests are recorded in order. -/
theorem mixedRequests_records : let start : Registry := ⟨.ofRoot ["map"] ["list"], []⟩
    (start.run mixedRequests).imports.Records (mixedRequests.filterMap Request.import?) ∧
      ∃ name, ((start.run (mixedRequests.take 4)).serve (.member "map.js" "default")).1 =
        some name ∧ (start.run (mixedRequests.take 4)).IsNew name := by
  intro start
  obtain ⟨hrecords, -, hcuts, -⟩ := run_records_imports (.ofRoot ["map"] ["list"]) mixedRequests
  obtain ⟨name, hname, -, hnew⟩ := hcuts (mixedRequests.take 4) (.member "map.js" "default")
    (mixedRequests.drop 5) ("map.js", "default") rfl rfl
  exact ⟨hrecords, name, hname, hnew (by decide)⟩

end TypedLowering
