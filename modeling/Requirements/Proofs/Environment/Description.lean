import Mathlib.Tactic.Lemma
import Requirements.Environment.Reader
import Requirements.Proofs.Document.Checked
import Requirements.Proofs.Environment.Registry

/-!
# What a description of a system says

A description that is accepted is empty or a mapping whose entries say what is on the system, and
the system answers what they say. The entry of a module may be a mapping, or in its place just the
version, or nothing; it does not matter which, since the short forms declare the same. A fraction is
a version in neither form.
-/

namespace Requirements

namespace SystemDescription

open Document (Gives WellKeyed DistinctKeys)

/-! ### Modules -/

/-- The document writes a version: none, a text, or an integer, which stands for its decimal
text. -/
inductive WritesVersion : Document → Option String → Prop
  | null : WritesVersion (.scalar .null) none
  | text (s : String) : WritesVersion (.scalar (.text s)) (some s)
  | int (n : Int) : WritesVersion (.scalar (.int n)) (some (toString n))

/-- The entry of a module declares a version and features: as a short form, which is a version
without features, or as a mapping with the keys `version` and `features` at most. -/
inductive Declares : Document → ModuleEntry → Prop
  | short {d : Document} {version : Option String} : WritesVersion d version →
    Declares d ⟨version, []⟩
  | mapping {entries : List (Scalar × Document)} {m : ModuleEntry} :
    (∀ e ∈ entries, ∃ key ∈ ["version", "features"], e.1 = .text key) →
    Gives entries "version" WritesVersion none m.version →
    Gives entries "features" (fun d fs => d = .ofTexts fs) [] m.features →
    Declares (.mapping entries) m

/-- The entry of a module writes a fraction where its version is expected. -/
inductive WritesFraction : Document → Prop
  | short (x : Float) : WritesFraction (.scalar (.float x))
  | mapping {entries : List (Scalar × Document)} {x : Float} :
    (.text "version", .scalar (.float x)) ∈ entries → WritesFraction (.mapping entries)

variable {d : Document} {m : ModuleEntry} {entries : List (Scalar × Document)}

/-- A version is read from a text, a whole number or nothing, each spelled as the document has
it. -/
lemma asVersion_eq_ok_iff {version : Option String} :
    asVersion d = .ok version ↔ WritesVersion d version := by
  constructor
  · intro h
    unfold asVersion at h
    split at h
    · cases h
      exact .null
    · cases h
      exact .int _
    · cases h
      exact .text _
    · cases h
  · intro h
    cases h with
    | null | text | int => rfl

/-- A module's mapping is accepted when it has no keys but its two fields, each well-formed or
absent. -/
lemma asModule_mapping_eq_ok_iff (h : DistinctKeys entries) :
    asModule (.mapping entries) = .ok m ↔
      (∀ e ∈ entries, ∃ key ∈ ["version", "features"], e.1 = .text key) ∧
        Gives entries "version" WritesVersion none m.version ∧
        Gives entries "features" (fun d fs => d = .ofTexts fs) [] m.features := by
  have hversion (v : Option String) : Document.field entries "version" none asVersion = .ok v ↔
      Gives entries "version" WritesVersion none v :=
    Document.field_eq_ok_iff h fun _ _ => asVersion_eq_ok_iff
  have hfeatures (fs : List String) :
      Document.field entries "features" [] Document.asTexts = .ok fs ↔
        Gives entries "features" (fun d fs => d = .ofTexts fs) [] fs :=
    Document.field_eq_ok_iff h fun _ _ => Document.asTexts_eq_ok_iff
  rw [← hversion, ← hfeatures, ← Document.onlyKeys_eq_ok_iff (u := ()), asModule,
    Checked.map_eq_ok_iff]
  constructor
  · rintro ⟨⟨⟨version, features⟩, ⟨⟩⟩, hfields, rfl⟩
    obtain ⟨hfields, hkeys⟩ := Checked.both_eq_ok_iff.mp hfields
    exact ⟨hkeys, Checked.both_eq_ok_iff.mp hfields⟩
  · rintro ⟨hkeys, hfields⟩
    exact ⟨((m.version, m.features), ()),
      Checked.both_eq_ok_iff.mpr ⟨Checked.both_eq_ok_iff.mpr hfields, hkeys⟩, rfl⟩

/-- A module is read as what its document declares. -/
lemma asModule_eq_ok_iff (h : d.WellKeyed) : asModule d = .ok m ↔ Declares d m := by
  constructor
  · intro hm
    cases d with
    | mapping entries =>
      obtain ⟨hkeys, hversion, hfeatures⟩ := (asModule_mapping_eq_ok_iff h.distinctKeys).mp hm
      exact .mapping hkeys hversion hfeatures
    | list items => cases hm
    | scalar value =>
      cases value with
      | null =>
        cases hm
        exact .short .null
      | int n =>
        cases hm
        exact .short (.int n)
      | text s =>
        cases hm
        exact .short (.text s)
      | bool b => cases hm
      | float x => cases hm
      | date => cases hm
  · intro hm
    cases hm with
    | short hversion =>
      cases hversion with
      | null | text | int => rfl
    | mapping hkeys hversion hfeatures =>
      exact (asModule_mapping_eq_ok_iff h.distinctKeys).mpr ⟨hkeys, hversion, hfeatures⟩

/-- A document that declares a module is no fraction. -/
lemma Declares.isFraction_eq_false (h : Declares d m) : isFraction d = false := by
  cases h with
  | short hversion =>
    cases hversion with
    | null | text | int => rfl
  | mapping => rfl

/-- What declares a module does not write a fraction. -/
theorem Declares.not_writesFraction (hd : d.WellKeyed) (h : Declares d m) : ¬WritesFraction d := by
  intro hfraction
  cases hfraction with
  | short x =>
    cases h with
    | short hversion => cases hversion
  | mapping hx =>
    cases h with
    | short hversion => cases hversion
    | mapping _ hversion _ =>
      have hwrites := hversion.of_mem hd.distinctKeys hx
      cases hwrites

/-- The entries of a mapping declare the modules, each under its name and in order. -/
def DeclaresAll (d : Document) (modules : List (String × ModuleEntry)) : Prop :=
  ∃ entries, d = .mapping entries ∧
    List.Forall₂ (fun e m => e.1 = .text m.1 ∧ Declares e.2 m.2) entries modules

/-- An entry under `modules` names a module and declares it. -/
lemma asNamedModule_eq_ok_iff {e : Scalar × Document} (h : e.2.WellKeyed)
    {module : String × ModuleEntry} :
    asNamedModule e = .ok module ↔ e.1 = .text module.1 ∧ Declares e.2 module.2 := by
  rw [asNamedModule, Checked.under_eq_ok_iff, Checked.both_eq_ok_iff, asModule_eq_ok_iff h]
  refine and_congr_left fun _ => ?_
  cases e.1 with
  | text name => simp
  | _ => simp [Checked.under, Checked.invalid]

/-- In two lists related element by element, every element of the first has a partner. -/
lemma exists_of_mem_left {α β : Type} {R : α → β → Prop} {l : List α} {l' : List β}
    (h : List.Forall₂ R l l') {a : α} (ha : a ∈ l) : ∃ b ∈ l', R a b := by
  induction h with
  | nil => cases ha
  | cons hab _ ih =>
    rcases List.mem_cons.mp ha with rfl | ha
    · exact ⟨_, List.mem_cons_self, hab⟩
    · obtain ⟨b, hb, hab⟩ := ih ha
      exact ⟨b, List.mem_cons_of_mem _ hb, hab⟩

/-- In two lists related element by element, every element of the second has a partner. -/
lemma exists_of_mem_right {α β : Type} {R : α → β → Prop} {l : List α} {l' : List β}
    (h : List.Forall₂ R l l') {b : β} (hb : b ∈ l') : ∃ a ∈ l, R a b :=
  exists_of_mem_left h.flip hb

/-- The modules of a description are read from its entries one by one, in order. -/
lemma asModules_eq_ok_iff (h : d.WellKeyed) {modules : List (String × ModuleEntry)} :
    asModules d = .ok modules ↔ DeclaresAll d modules := by
  cases d with
  | scalar value => simp [asModules, Checked.invalid, DeclaresAll]
  | list items => simp [asModules, Checked.invalid, DeclaresAll]
  | mapping entries =>
    have hall : Checked.all (entries.map asNamedModule) = .ok modules ↔
        List.Forall₂ (fun e m => e.1 = .text m.1 ∧ Declares e.2 m.2) entries modules :=
      Checked.all_map_eq_ok_iff fun e he m => asNamedModule_eq_ok_iff (h.of_mem he)
    rw [asModules]
    split
    · rename_i hfraction
      obtain ⟨e, he, hfraction⟩ := List.any_eq_true.mp hfraction
      simp only [Checked.invalid, reduceCtorEq, false_iff]
      rintro ⟨_, ⟨⟩, hmodules⟩
      obtain ⟨m, -, -, hm⟩ := exists_of_mem_left hmodules he
      rw [hm.isFraction_eq_false] at hfraction
      cases hfraction
    · rw [hall]
      constructor
      · exact fun hmodules => ⟨entries, rfl, hmodules⟩
      · rintro ⟨_, ⟨⟩, hmodules⟩
        exact hmodules

/-! ### Registries -/

/-- The module that is put into the registry. -/
def installed (module : String × ModuleEntry) : InstalledModule :=
  ⟨module.1, module.2.version, Text.nameSet module.2.features⟩

/-- Modules with different names stand in the registry in the order in which they were added. -/
theorem modules_registryOf {modules : List (String × ModuleEntry)}
    (h : (modules.map Prod.fst).Nodup) : (registryOf modules).modules = modules.map installed := by
  have hfold (r : Registry) (hr : ∀ N ∈ r.names, N ∉ modules.map Prod.fst) :
      (modules.foldl (fun r m => r.add m.1 m.2.version m.2.features) r).modules =
        r.modules ++ modules.map installed := by
    induction modules generalizing r with
    | nil => simp
    | cons m modules ih =>
      obtain ⟨hm, hmodules⟩ := List.nodup_cons.mp h
      have habsent : m.1 ∉ r.names := fun hmem => hr m.1 hmem List.mem_cons_self
      have hadd := Registry.modules_add_of_not_mem m.2.version m.2.features habsent
      rw [List.foldl_cons, ih hmodules, hadd]
      · simp [installed]
      · intro N hN
        rw [Registry.names_add, if_neg habsent] at hN
        rcases List.mem_append.mp hN with hN | hN
        · exact fun hmem => hr N hN (List.mem_cons_of_mem _ hmem)
        · rw [List.mem_singleton.mp hN]
          exact hm
  exact hfold {} (by simp)

/-! ### Contents -/

/-- What a description says of a system. -/
structure Contents where
  osname : String
  ithreads : Bool
  modules : List (String × ModuleEntry)
  includes : List String
  libs : List String
  programs : List String
deriving DecidableEq, Repr

namespace Contents

/-- The names listed for one kind of probe. -/
def names (c : Contents) : Probe → List String
  | .header => c.includes
  | .library => c.libs
  | .program => c.programs

/-- The system of the contents. -/
def system (c : Contents) : SystemDescription where
  registry := registryOf c.modules
  inventory :=
    { headers := Text.nameSet c.includes
      libraries := Text.nameSet c.libs
      programs := Text.nameSet c.programs }
  osname := c.osname
  ithreads := c.ithreads

end Contents

/-- The entries of a mapping have no keys but the known ones and say what the contents are, a value
of the right type for each key. The platform has the given name unless it is said, and what is not
said is empty. -/
structure Says (platform : String) (entries : List (Scalar × Document)) (c : Contents) : Prop where
  known : ∀ e ∈ entries, ∃ key ∈ keys, e.1 = .text key
  osname : Gives entries "osname" (fun d s => d = .scalar (.text s)) platform c.osname
  ithreads : Gives entries "ithreads" Document.IsTruth false c.ithreads
  modules : Gives entries "modules" DeclaresAll [] c.modules
  includes : Gives entries "includes" (fun d names => d = .ofTexts names) [] c.includes
  libs : Gives entries "libs" (fun d names => d = .ofTexts names) [] c.libs
  programs : Gives entries "programs" (fun d names => d = .ofTexts names) [] c.programs

/-- The system answers what the contents say. -/
structure Answers (s : SystemDescription) (c : Contents) : Prop where
  osname : s.osname = c.osname
  ithreads : s.ithreads = c.ithreads
  records : s.registry.records = c.modules.map fun m => ⟨m.1, m.2.version⟩
  lookup : ∀ N record, s.registry.lookup N = some record ↔
    ∃ m ∈ c.modules, m.1 = N ∧ record = ⟨N, m.2.version⟩
  hasFeature : ∀ N f, s.registry.hasFeature N f = true ↔
    ∃ m ∈ c.modules, m.1 = N ∧ f ∈ m.2.features
  has : ∀ kind name, s.inventory.has kind name = true ↔ name ∈ c.names kind

variable {platform : String} {c : Contents} {s : SystemDescription}

/-- The names of the modules of a well-keyed document are distinct. -/
lemma DeclaresAll.nodup (hd : d.WellKeyed) {modules : List (String × ModuleEntry)}
    (h : DeclaresAll d modules) : (modules.map Prod.fst).Nodup := by
  obtain ⟨entries, rfl, hmodules⟩ := h
  have hkeys : DistinctKeys entries := hd.distinctKeys
  clear hd
  induction hmodules with
  | nil => exact .nil
  | @cons e m entries modules hm hmodules ih =>
    obtain ⟨he, hkeys⟩ := List.pairwise_cons.mp hkeys
    rw [List.map_cons, List.nodup_cons]
    refine ⟨fun hmem => ?_, ih hkeys⟩
    obtain ⟨m', hm', hname⟩ := List.mem_map.mp hmem
    obtain ⟨e', he', hkey', -⟩ := exists_of_mem_right hmodules hm'
    exact he e' he' m.1 hm.1 (by rw [hkey', hname])

/-- A description of a well-keyed document names every module once. -/
lemma Says.nodup (hd : (Document.mapping entries).WellKeyed) (h : Says platform entries c) :
    (c.modules.map Prod.fst).Nodup := by
  rcases h.modules with ⟨d, hmem, hmodules⟩ | ⟨-, hnone⟩
  · exact hmodules.nodup (hd.of_mem hmem)
  · rw [hnone]
    exact .nil

/-- The environment of a description answers from the description's contents. -/
lemma Contents.answers (h : (c.modules.map Prod.fst).Nodup) : c.system.Answers c := by
  have hmodules : c.system.registry.modules = c.modules.map installed := modules_registryOf h
  have hnames : c.system.registry.names = c.modules.map Prod.fst := by
    rw [Registry.names, hmodules, List.map_map]
    rfl
  have hget (N : String) (m : InstalledModule) : c.system.registry.get? N = some m ↔
      ∃ module ∈ c.modules, installed module = m ∧ module.1 = N := by
    rw [Registry.get?_eq_some_iff (hnames ▸ h), hmodules, List.mem_map]
    constructor
    · rintro ⟨⟨module, hmem, rfl⟩, rfl⟩
      exact ⟨module, hmem, rfl, rfl⟩
    · rintro ⟨module, hmem, rfl, rfl⟩
      exact ⟨⟨module, hmem, rfl⟩, rfl⟩
  refine ⟨rfl, rfl, ?_, fun N record => ?_, fun N f => ?_, fun kind name => ?_⟩
  · rw [Registry.records, hmodules, List.map_map]
    rfl
  · rw [Registry.lookup, Option.map_eq_some_iff]
    constructor
    · rintro ⟨m, hm, rfl⟩
      obtain ⟨module, hmem, rfl, rfl⟩ := (hget N m).mp hm
      exact ⟨module, hmem, rfl, rfl⟩
    · rintro ⟨module, hmem, rfl, rfl⟩
      exact ⟨installed module, (hget module.1 _).mpr ⟨module, hmem, rfl, rfl⟩, rfl⟩
  · rw [Registry.hasFeature, Option.any_eq_true]
    constructor
    · rintro ⟨m, hm, hf⟩
      obtain ⟨module, hmem, rfl, rfl⟩ := (hget N m).mp hm
      exact ⟨module, hmem, rfl, by simpa [installed] using hf⟩
    · rintro ⟨module, hmem, rfl, hf⟩
      exact ⟨installed module, (hget module.1 _).mpr ⟨module, hmem, rfl, rfl⟩,
        by simpa [installed] using hf⟩
  · cases kind <;> simp [Inventory.has, Inventory.names, system, names]

/-- A mapping describes the system of what its entries say, if they say anything. -/
theorem ofEntries_eq_ok_iff (h : (Document.mapping entries).WellKeyed) :
    ofEntries platform entries = .ok s ↔ ∃ c, Says platform entries c ∧ s = c.system := by
  have hkeys := h.distinctKeys
  have hosname (v : String) : Document.field entries "osname" platform Document.asText = .ok v ↔
      Gives entries "osname" (fun d s => d = .scalar (.text s)) platform v :=
    Document.field_eq_ok_iff hkeys fun _ _ => Document.asText_eq_ok_iff
  have hithreads (v : Bool) : Document.field entries "ithreads" false Document.asBool = .ok v ↔
      Gives entries "ithreads" Document.IsTruth false v :=
    Document.field_eq_ok_iff hkeys fun _ _ => Document.asBool_eq_ok_iff
  have hmodules (v : List (String × ModuleEntry)) :
      Document.field entries "modules" [] asModules = .ok v ↔
        Gives entries "modules" DeclaresAll [] v :=
    Document.field_eq_ok_iff hkeys fun _ hmem => asModules_eq_ok_iff (h.of_mem hmem)
  have htexts (key : String) (v : List String) :
      Document.field entries key [] Document.asTexts = .ok v ↔
        Gives entries key (fun d names => d = .ofTexts names) [] v :=
    Document.field_eq_ok_iff hkeys fun _ _ => Document.asTexts_eq_ok_iff
  rw [ofEntries, Checked.map_eq_ok_iff]
  constructor
  · rintro ⟨⟨⟨⟨osname, ithreads⟩, modules, includes, libs, programs⟩, ⟨⟩⟩, hall, rfl⟩
    obtain ⟨hfields, hknown⟩ := Checked.both_eq_ok_iff.mp hall
    obtain ⟨hplatform, hfields⟩ := Checked.both_eq_ok_iff.mp hfields
    obtain ⟨ho, hi⟩ := Checked.both_eq_ok_iff.mp hplatform
    obtain ⟨hm, hfiles⟩ := Checked.both_eq_ok_iff.mp hfields
    obtain ⟨hincludes, hfiles⟩ := Checked.both_eq_ok_iff.mp hfiles
    obtain ⟨hlibs, hprograms⟩ := Checked.both_eq_ok_iff.mp hfiles
    refine ⟨⟨osname, ithreads, modules, includes, libs, programs⟩, ?_, rfl⟩
    exact {
      known := Document.onlyKeys_eq_ok_iff.mp hknown
      osname := (hosname _).mp ho
      ithreads := (hithreads _).mp hi
      modules := (hmodules _).mp hm
      includes := (htexts _ _).mp hincludes
      libs := (htexts _ _).mp hlibs
      programs := (htexts _ _).mp hprograms }
  · rintro ⟨c, hc, rfl⟩
    have hplatform := Checked.both_eq_ok_iff.mpr
      ⟨(hosname _).mpr hc.osname, (hithreads _).mpr hc.ithreads⟩
    have hfiles := Checked.both_eq_ok_iff.mpr ⟨(htexts _ _).mpr hc.includes,
      Checked.both_eq_ok_iff.mpr ⟨(htexts _ _).mpr hc.libs, (htexts _ _).mpr hc.programs⟩⟩
    have hfields := Checked.both_eq_ok_iff.mpr
      ⟨hplatform, Checked.both_eq_ok_iff.mpr ⟨(hmodules _).mpr hc.modules, hfiles⟩⟩
    have hknown : Document.onlyKeys entries keys = .ok () :=
      Document.onlyKeys_eq_ok_iff.mpr hc.known
    exact ⟨_, Checked.both_eq_ok_iff.mpr ⟨hfields, hknown⟩, rfl⟩

/-- The entries that a document stands for: those of a mapping, and none if it counts as empty. -/
def Entries (d : Document) (entries : List (Scalar × Document)) : Prop :=
  d.IsEmpty ∧ entries = [] ∨ d = .mapping entries

/-- Changing the error of a computation keeps its successes. -/
lemma mapError_eq_ok_iff {α ε ε' : Type} {f : ε → ε'} {x : Except ε α} {a : α} :
    x.mapError f = .ok a ↔ x = .ok a := by
  cases x <;> simp [Except.mapError]

/-- A document describes a system through its entries, an empty document having none. -/
lemma ofDocument_eq_ok_iff :
    ofDocument platform d = .ok s ↔
      ∃ entries, Entries d entries ∧ ofEntries platform entries = .ok s := by
  unfold ofDocument
  by_cases hblank : d.isBlank
  · rw [if_pos hblank, mapError_eq_ok_iff]
    have hempty := Document.isBlank_iff.mp hblank
    constructor
    · exact fun hs => ⟨[], .inl ⟨hempty, rfl⟩, hs⟩
    · rintro ⟨entries, ⟨-, rfl⟩ | rfl, hs⟩
      · exact hs
      · cases hempty
        exact hs
  · rw [if_neg hblank]
    have hempty : ¬d.IsEmpty := fun h => hblank (Document.isBlank_iff.mpr h)
    cases d with
    | mapping entries =>
      rw [mapError_eq_ok_iff]
      constructor
      · exact fun hs => ⟨entries, .inr rfl, hs⟩
      · rintro ⟨_, ⟨h, -⟩ | ⟨⟨⟩⟩, hs⟩
        · exact absurd h hempty
        · exact hs
    | scalar value => simp [Entries, hempty]
    | list items => simp [Entries, hempty]

/-- The entries of a well-keyed document form a well-keyed mapping. -/
lemma Entries.wellKeyed (hd : d.WellKeyed) (h : Entries d entries) :
    (Document.mapping entries).WellKeyed := by
  rcases h with ⟨-, rfl⟩ | rfl
  · exact .mapping .nil (by simp)
  · exact hd

/-- A document describes the system of what its entries say, if they say anything. -/
theorem ofDocument_eq_ok_iff_contents (h : d.WellKeyed) :
    ofDocument platform d = .ok s ↔
      ∃ entries c, Entries d entries ∧ Says platform entries c ∧ s = c.system := by
  rw [ofDocument_eq_ok_iff]
  constructor
  · rintro ⟨entries, hentries, hs⟩
    obtain ⟨c, hc, rfl⟩ := (ofEntries_eq_ok_iff (hentries.wellKeyed h)).mp hs
    exact ⟨entries, c, hentries, hc, rfl⟩
  · rintro ⟨entries, c, hentries, hc, rfl⟩
    exact ⟨entries, hentries, (ofEntries_eq_ok_iff (hentries.wellKeyed h)).mpr ⟨c, hc, rfl⟩⟩

/-- Where nothing is said there is nothing. -/
theorem says_nil (platform : String) : Says platform [] ⟨platform, false, [], [], [], []⟩ := by
  have hnone {α : Type} (key : String) (P : Document → α → Prop) (a : α) : Gives [] key P a a :=
    .inr ⟨by simp, rfl⟩
  exact ⟨by simp, hnone _ _ _, hnone _ _ _, hnone _ _ _, hnone _ _ _, hnone _ _ _, hnone _ _ _⟩

/-- What is declared under `modules` does not write a fraction. -/
theorem Says.not_writesFraction (hd : (Document.mapping entries).WellKeyed)
    (h : Says platform entries c) {modules : List (Scalar × Document)}
    (hmem : (.text "modules", .mapping modules) ∈ entries) {e : Scalar × Document}
    (he : e ∈ modules) : ¬WritesFraction e.2 := by
  obtain ⟨_, ⟨⟩, hmodules⟩ := h.modules.of_mem hd.distinctKeys hmem
  obtain ⟨m, -, -, hm⟩ := exists_of_mem_left hmodules he
  exact hm.not_writesFraction ((hd.of_mem hmem).of_mem he)

/-! ### Replacing the entry of a module -/

/-- A module's declaration can be replaced by another that declares the same. -/
lemma asModules_replace (before after : List (Scalar × Document)) (name : Scalar)
    {e e' : Document} (he : e.WellKeyed) (he' : e'.WellKeyed) (h : Declares e m)
    (h' : Declares e' m) :
    asModules (.mapping (before ++ (name, e) :: after)) =
      asModules (.mapping (before ++ (name, e') :: after)) := by
  have hmodule : asNamedModule (name, e) = asNamedModule (name, e') := by
    simp only [asNamedModule]
    rw [(asModule_eq_ok_iff he).mpr h, (asModule_eq_ok_iff he').mpr h']
  simp only [asModules, List.any_append, List.any_cons, List.map_append, List.map_cons,
    h.isFraction_eq_false, h'.isFraction_eq_false, hmodule]

/-- The document under `modules` can be replaced by another that is read as the same modules. -/
lemma ofEntries_replace (platform : String) (front back : List (Scalar × Document))
    {e e' : Document} (h : asModules e = asModules e') :
    ofEntries platform (front ++ (.text "modules", e) :: back) =
      ofEntries platform (front ++ (.text "modules", e') :: back) := by
  have hother {α : Type} {key : String} (hkey : "modules" ≠ key) (default : α)
      (check : Document → Checked α) :
      Document.field (front ++ (.text "modules", e) :: back) key default check =
        Document.field (front ++ (.text "modules", e') :: back) key default check :=
    Document.field_replace front back fun hk => absurd (Scalar.text.inj hk) hkey
  have hmodules : Document.field (front ++ (.text "modules", e) :: back) "modules" [] asModules =
      Document.field (front ++ (.text "modules", e') :: back) "modules" [] asModules :=
    Document.field_replace front back fun _ => h
  unfold ofEntries
  rw [hmodules, Document.onlyKeys_replace front back (.text "modules") e e', hother (by decide),
    hother (by decide), hother (by decide), hother (by decide), hother (by decide)]

/-- A description is accepted exactly if it counts as empty or is a mapping with no keys but the
known ones and a value of the right type for each of them, and then the system answers what its
entries say: it has the modules that are declared, in their order, each with the version that was
written, the decimal text of an integer, or none, with the features that are listed, and the files
that are listed. A fraction is refused as the version of a module, be it a short form or under the
key `version`. Whether a module is declared in a short form or by a mapping makes no difference. -/
theorem ofDocument_accepts (platform : String) (d : Document) (h : d.WellKeyed) :
    ((∃ s, ofDocument platform d = .ok s) ↔
      d.IsEmpty ∨ ∃ entries c, d = .mapping entries ∧ Says platform entries c) ∧
    (∀ entries modules, d = .mapping entries → (.text "modules", .mapping modules) ∈ entries →
      ∀ e ∈ modules, WritesFraction e.2 → ∀ s, ofDocument platform d ≠ .ok s) ∧
    (∀ s, ofDocument platform d = .ok s →
      ∃ entries c, Entries d entries ∧ Says platform entries c ∧ s.Answers c) ∧
    ∀ front back before after name e e' m,
      d = .mapping (front ++ (.text "modules", .mapping (before ++ (name, e) :: after)) :: back) →
        e'.WellKeyed → Declares e m → Declares e' m →
          ofDocument platform d = ofDocument platform (.mapping
            (front ++ (.text "modules", .mapping (before ++ (name, e') :: after)) :: back)) := by
  refine ⟨?_, ?_, fun s hs => ?_, ?_⟩
  · constructor
    · rintro ⟨s, hs⟩
      obtain ⟨entries, c, ⟨hempty, -⟩ | hd, hc, -⟩ := (ofDocument_eq_ok_iff_contents h).mp hs
      · exact .inl hempty
      · exact .inr ⟨entries, c, hd, hc⟩
    · rintro (hempty | ⟨entries, c, hd, hc⟩)
      · exact ⟨_, (ofDocument_eq_ok_iff_contents h).mpr
          ⟨[], _, .inl ⟨hempty, rfl⟩, says_nil platform, rfl⟩⟩
      · exact ⟨_, (ofDocument_eq_ok_iff_contents h).mpr ⟨entries, c, .inr hd, hc, rfl⟩⟩
  · rintro entries modules rfl hmem e he hfraction s hs
    obtain ⟨entries', c, ⟨hempty, -⟩ | hd, hc, -⟩ := (ofDocument_eq_ok_iff_contents h).mp hs
    · cases hempty
      cases hmem
    · obtain rfl := Document.mapping.inj hd
      exact hc.not_writesFraction h hmem he hfraction
  · obtain ⟨entries, c, hentries, hc, rfl⟩ := (ofDocument_eq_ok_iff_contents h).mp hs
    exact ⟨entries, c, hentries, hc, Contents.answers (hc.nodup (hentries.wellKeyed h))⟩
  · rintro front back before after name e e' m rfl he' hm hm'
    have hmodules : (Document.mapping (before ++ (name, e) :: after)).WellKeyed :=
      h.of_mem (List.mem_append_right front List.mem_cons_self)
    have he : e.WellKeyed := hmodules.of_mem (List.mem_append_right before List.mem_cons_self)
    have hentries := ofEntries_replace platform front back
      (asModules_replace before after name he he' hm hm')
    have hblank (d : Document) :
        (Document.mapping (front ++ (.text "modules", d) :: back)).isBlank = false := by
      simp [Document.isBlank]
    simp only [ofDocument, hblank, hentries]

/-- An integer stands for its decimal text, be it a short form or under the key `version`, and a
fraction in its place is refused. -/
theorem ofDocument_accepts_of_integer :
    let modules (a : Document) : List (Scalar × Document) :=
      [(.text "B", .mapping [(.text "features", .ofTexts ["f"])]), (.text "A", a)]
    let description (a : Document) : Document :=
      .mapping [(.text "libs", .ofTexts ["m"]), (.text "modules", .mapping (modules a))]
    let short : Document := .scalar (.int 7)
    let long : Document := .mapping [(.text "version", short)]
    let s : SystemDescription :=
      { registry := ⟨[⟨"B", none, ["f"]⟩, ⟨"A", some "7", []⟩]⟩
        inventory := { libraries := ["m"] } }
    ofDocument "linux" (description short) = .ok s ∧
      ofDocument "linux" (description short) = ofDocument "linux" (description long) ∧
      (∃ entries c, Entries (description short) entries ∧ Says "linux" entries c ∧ s.Answers c) ∧
      ofDocument "linux" (description (.scalar (.float 0.9))) ≠ .ok s := by
  intro modules description short long s
  have htexts (texts : List String) : (Document.ofTexts texts).WellKeyed := by
    refine .list fun d hd => ?_
    obtain ⟨t, -, rfl⟩ := List.mem_map.mp hd
    exact .scalar _
  have hwell {a : Document} (ha : a.WellKeyed) : (description a).WellKeyed := by
    have hfeatures : (Document.mapping [(.text "features", .ofTexts ["f"])]).WellKeyed :=
      .mapping (by simp [DistinctKeys]) (by simpa using htexts ["f"])
    have hmodules : (Document.mapping (modules a)).WellKeyed :=
      .mapping (by simp [DistinctKeys, modules]) (by simpa [modules] using ⟨hfeatures, ha⟩)
    exact .mapping (by simp [DistinctKeys]) (by simpa using ⟨htexts ["m"], hmodules⟩)
  have hlong : long.WellKeyed := .mapping (by simp [DistinctKeys]) (by simpa using .scalar _)
  have hdeclares : Declares long ⟨some (toString (7 : Int)), []⟩ := by
    exact .mapping (by simp) (.inl ⟨short, by simp, .int 7⟩) (.inr ⟨by simp, rfl⟩)
  have hs : ofDocument "linux" (description short) = .ok s := by rfl
  obtain ⟨-, -, hanswers, hreplace⟩ :=
    ofDocument_accepts "linux" (description short) (hwell (.scalar _))
  obtain ⟨-, hrefused, -, -⟩ :=
    ofDocument_accepts "linux" (description (.scalar (.float 0.9))) (hwell (.scalar _))
  refine ⟨hs, ?_, hanswers s hs, ?_⟩
  · exact hreplace [_] [] [_] [] (.text "A") short long _ rfl hlong (.short (.int 7)) hdeclares
  · exact hrefused _ (modules (.scalar (.float 0.9))) rfl (by simp)
      (.text "A", .scalar (.float 0.9)) (by simp [modules]) (.short 0.9) s

end SystemDescription

end Requirements
