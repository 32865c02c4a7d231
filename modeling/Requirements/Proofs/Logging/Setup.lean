import Mathlib.Data.List.Nodup
import Mathlib.Tactic.Lemma
import Requirements.Logging.Basic

/-!
# Setting a journal up again and again

A journal has handlers of its own and handlers of others. However often it is set up, it has one
console handler of its own and at most one handler for each file, and the handlers of others stay as
they are. The handlers are looked at through three views that have nothing in common: the levels of
the own console handlers, the files of the own file handlers, and the handlers of others. Each part
of a setup changes one of the first two and leaves what it is not about as it is.
-/

namespace Requirements

/-! ### Resolved paths -/

namespace Path

/-- Going along the way so far leads along it again. -/
def Settled (rooted : Bool) (above : List String) : Prop :=
  above.reverse.foldl (resolveStep rooted) [] = above

variable {rooted : Bool} {above : List String} {part : String}

/-- A part that is a name goes behind the parts above. -/
lemma resolveStep_of_ne (h : part ≠ up) : resolveStep rooted above part = part :: above :=
  if_neg h

/-- A step up takes away the name above. -/
lemma resolveStep_up_of_ne (h : part ≠ up) : resolveStep rooted (part :: above) up = above := by
  simp [resolveStep, h]

/-- A step up above another one stays. -/
lemma resolveStep_up_up : resolveStep rooted (up :: above) up = up :: up :: above := by
  simp [resolveStep]

lemma settled_nil : Settled rooted [] := rfl

/-- A settled path stays settled with a part that is put behind it. -/
lemma settled_cons_iff (h : Settled rooted above) :
    Settled rooted (part :: above) ↔ resolveStep rooted above part = part :: above := by
  unfold Settled at h ⊢
  rw [List.reverse_cons, List.foldl_append, h]
  rfl

/-- The way without its last part, unless that leads up, is settled, too. -/
theorem Settled.of_cons (hpart : part ≠ up) (h : Settled rooted (part :: above)) :
    Settled rooted above := by
  unfold Settled at h ⊢
  rw [List.reverse_cons, List.foldl_append, List.foldl_cons, List.foldl_nil,
    resolveStep_of_ne hpart] at h
  exact (List.cons.inj h).2

/-- A step from a settled path ends at a settled one. -/
lemma Settled.step (h : Settled rooted above) (part : String) :
    Settled rooted (resolveStep rooted above part) := by
  by_cases hpart : part = up
  · subst hpart
    match above with
    | [] =>
      cases rooted with
      | true => exact h
      | false => rfl
    | last :: rest =>
      by_cases hlast : last = up
      · subst hlast
        rw [resolveStep_up_up]
        exact (settled_cons_iff h).mpr resolveStep_up_up
      · rw [resolveStep_up_of_ne hlast]
        exact h.of_cons hlast
  · rw [resolveStep_of_ne hpart]
    exact (settled_cons_iff h).mpr (resolveStep_of_ne hpart)

/-- Following parts from a settled path ends at a settled one. -/
lemma Settled.follow (h : Settled rooted above) (parts : List String) :
    Settled rooted (parts.foldl (resolveStep rooted) above) := by
  induction parts generalizing above with
  | nil => exact h
  | cons part parts ih => exact ih (h.step part)

/-- A resolved path resolves to itself. -/
@[simp] theorem resolve_resolve (p : Path) : p.resolve.resolve = p.resolve := by
  have hsettled : Settled (!p.isRelative) (p.parts.foldl (resolveStep (!p.isRelative)) []) :=
    settled_nil.follow p.parts
  exact congrArg (fun parts => { p with parts := parts.reverse }) hsettled

end Path

/-! ### Views of the handlers -/

namespace LogHandler

/-- The level of an own console handler. -/
def consoleLevel? : LogHandler → Option Int
  | ⟨true, .console, level⟩ => some level
  | _ => none

/-- The file and the level of an own file handler. -/
def ownFile? : LogHandler → Option (Path × Int)
  | ⟨true, .file path, level⟩ => some (path, level)
  | _ => none

/-- The handler, if it is one of others. -/
def foreign? : LogHandler → Option LogHandler :=
  Option.guard fun h => !h.own

end LogHandler

/-- What does not see the changed elements does not see the change. -/
lemma filterMap_changeFirst {α β : Type} {p : α → Bool} {g : α → α} {f : α → Option β}
    (h : ∀ a, p a = true → f (g a) = none ∧ f a = none) (l : List α) :
    (changeFirst p g l).filterMap f = l.filterMap f := by
  induction l with
  | nil => rfl
  | cons a l ih =>
    rw [changeFirst]
    split
    · rename_i ha
      rw [List.filterMap_cons_none (h a ha).1, List.filterMap_cons_none (h a ha).2]
    · rw [List.filterMap_cons, List.filterMap_cons, ih]

namespace Journal

open LogHandler

/-- The levels of the own console handlers. -/
def consoleLevels (hs : List LogHandler) : List Int :=
  hs.filterMap consoleLevel?

/-- The files of the own file handlers, with the levels of the handlers. -/
def ownFiles (hs : List LogHandler) : List (Path × Int) :=
  hs.filterMap ownFile?

/-- The paths of the own file handlers. -/
def ownPaths (hs : List LogHandler) : List Path :=
  (ownFiles hs).map Prod.fst

/-- The handlers of others. -/
def foreign (hs : List LogHandler) : List LogHandler :=
  hs.filter fun h => !h.own

/-- The handlers of others are picked one by one, in order. -/
lemma foreign_eq_filterMap (hs : List LogHandler) : foreign hs = hs.filterMap foreign? := by
  rw [foreign?, List.filterMap_eq_filter, foreign]

variable {resolve : Path → Path}

/-! ### What the parts of a setup leave as it is -/

section

variable {β : Type} {f : LogHandler → Option β} (hs : List LogHandler)

/-- A view without own console handlers is not changed with the console. -/
theorem filterMap_setConsole (hf : ∀ level, f ⟨true, .console, level⟩ = none) (level : Int) :
    (setConsole level hs).filterMap f = hs.filterMap f := by
  unfold setConsole
  split
  · refine filterMap_changeFirst (fun h hconsole => ?_) hs
    obtain ⟨own, target, level'⟩ := h
    obtain ⟨rfl, rfl⟩ : own = true ∧ target = .console := by
      simpa [isOwnConsole, isConsole] using hconsole
    exact ⟨hf _, hf _⟩
  · rw [List.filterMap_append, List.filterMap_cons_none (hf level), List.filterMap_nil,
      List.append_nil]

/-- A view without own file handlers is not changed when files are dropped. -/
theorem filterMap_dropFiles (hf : ∀ path level, f ⟨true, .file path, level⟩ = none)
    (path : Option Path) : (dropFiles resolve path hs).filterMap f = hs.filterMap f := by
  rw [dropFiles, List.filterMap_filter]
  refine List.filterMap_congr fun h _ => ?_
  match h with
  | ⟨false, _, _⟩ | ⟨true, .console, _⟩ => rfl
  | ⟨true, .file _, _⟩ => rw [hf, ite_self]

/-- A view without own file handlers is not changed with a file. -/
theorem filterMap_setFile (hf : ∀ path level, f ⟨true, .file path, level⟩ = none) (path : Path)
    (level : Int) : (setFile resolve path level hs).filterMap f = hs.filterMap f := by
  unfold setFile
  split
  · rw [List.filterMap_map]
    refine List.filterMap_congr fun h _ => ?_
    match h with
    | ⟨false, _, _⟩ | ⟨true, .console, _⟩ => rfl
    | ⟨true, .file _, _⟩ =>
      simp only [Function.comp_apply, apply_ite f, withLevel, hf, ite_self]
  · rw [List.filterMap_append, List.filterMap_cons_none (hf path level), List.filterMap_nil,
      List.append_nil]

end

/-! ### What the parts of a setup change -/

variable (hs : List LogHandler)

/-- The first own console handler gets the level, and if there is none, there is one then. -/
theorem consoleLevels_setConsole (level : Int) :
    consoleLevels (setConsole level hs) = level :: (consoleLevels hs).tail := by
  unfold setConsole
  split
  · rename_i hany
    induction hs with
    | nil => cases hany
    | cons h hs ih =>
      rw [changeFirst]
      match h with
      | ⟨true, .console, _⟩ => rfl
      | ⟨false, _, _⟩ | ⟨true, .file _, _⟩ => exact ih hany
  · rename_i hany
    have hnone : consoleLevels hs = [] := by
      refine List.filterMap_eq_nil_iff.mpr fun h hh => ?_
      match h with
      | ⟨true, .console, _⟩ => exact absurd (List.any_eq_true.mpr ⟨_, hh, rfl⟩) hany
      | ⟨false, _, _⟩ | ⟨true, .file _, _⟩ => rfl
    rw [consoleLevels, List.filterMap_append, ← consoleLevels, hnone]
    rfl

/-- The own file handlers know their files by resolved paths. -/
def KnowsResolved (resolve : Path → Path) (hs : List LogHandler) : Prop :=
  ∀ p ∈ ownPaths hs, resolve p = p

/-- The own paths are those of the own file handlers. -/
lemma mem_ownPaths_iff {p : Path} {hs : List LogHandler} :
    p ∈ ownPaths hs ↔ ∃ level, ⟨true, .file p, level⟩ ∈ hs := by
  simp only [ownPaths, ownFiles, List.mem_map, List.mem_filterMap]
  constructor
  · rintro ⟨⟨_, level⟩, ⟨h, hmem, hfile⟩, rfl⟩
    match h with
    | ⟨true, .file _, _⟩ =>
      cases hfile
      exact ⟨level, hmem⟩
    | ⟨false, _, _⟩ | ⟨true, .console, _⟩ => cases hfile
  · rintro ⟨level, hmem⟩
    exact ⟨(p, level), ⟨_, hmem, rfl⟩, rfl⟩

/-- The own files but the one that is kept are dropped. -/
theorem ownFiles_dropFiles (h : KnowsResolved resolve hs) (path : Option Path) :
    ownFiles (dropFiles resolve path hs) = (ownFiles hs).filter fun f => path == some f.1 := by
  rw [ownFiles, dropFiles, List.filterMap_filter, ownFiles, List.filter_filterMap]
  refine List.filterMap_congr fun x hx => ?_
  match x, path with
  | ⟨false, _, _⟩, _ | ⟨true, .console, _⟩, _ => rfl
  | ⟨true, .file _, _⟩, none => rfl
  | ⟨true, .file p, _⟩, some path =>
    have hp : resolve p = p := h p (mem_ownPaths_iff.mpr ⟨_, hx⟩)
    by_cases hpath : path = p
    · simp [isOwnFile, isOwnFileAt, isConsole, ownFile?, Option.filter_some, hp, hpath]
    · simp [isOwnFile, isOwnFileAt, isConsole, ownFile?, Option.filter_some, hp, hpath,
        Ne.symm hpath]

/-- There is an own handler at a path exactly if the path is among the own ones. -/
lemma any_isOwnFileAt_iff (h : KnowsResolved resolve hs) {path : Path} :
    hs.any (isOwnFileAt resolve path) = true ↔ path ∈ ownPaths hs := by
  rw [List.any_eq_true, mem_ownPaths_iff]
  constructor
  · rintro ⟨x, hmem, hat⟩
    match x with
    | ⟨true, .file p, level⟩ =>
      have hp : resolve p = p := h p (mem_ownPaths_iff.mpr ⟨level, hmem⟩)
      obtain rfl : p = path := by simpa [isOwnFileAt, hp] using hat
      exact ⟨level, hmem⟩
    | ⟨false, _, _⟩ | ⟨true, .console, _⟩ => simp [isOwnFileAt] at hat
  · rintro ⟨level, hmem⟩
    have hp : resolve path = path := h path (mem_ownPaths_iff.mpr ⟨level, hmem⟩)
    exact ⟨_, hmem, by simp [isOwnFileAt, hp]⟩

/-- The files with one at a path that has the level: the one that is there, or else a new one. -/
def putFile (path : Path) (level : Int) (files : List (Path × Int)) : List (Path × Int) :=
  if path ∈ files.map Prod.fst then files.map fun f => if f.1 = path then (path, level) else f
  else files ++ [(path, level)]

/-- Setting a file puts it into the own files. -/
lemma ownFiles_setFile (h : KnowsResolved resolve hs) (path : Path) (level : Int) :
    ownFiles (setFile resolve path level hs) = putFile path level (ownFiles hs) := by
  unfold setFile putFile
  simp only [any_isOwnFileAt_iff hs h, ownPaths]
  split
  · rw [ownFiles, List.filterMap_map, ownFiles, List.map_filterMap]
    refine List.filterMap_congr fun x hx => ?_
    match x with
    | ⟨false, _, _⟩ | ⟨true, .console, _⟩ => rfl
    | ⟨true, .file p, _⟩ =>
      have hp : resolve p = p := h p (mem_ownPaths_iff.mpr ⟨_, hx⟩)
      by_cases hpath : path = p
      · simp [isOwnFileAt, ownFile?, withLevel, hp, hpath]
      · simp [isOwnFileAt, ownFile?, withLevel, hp, Ne.symm hpath]
  · rw [ownFiles, List.filterMap_append, ← ownFiles]
    rfl

variable {path : Path} {level : Int} {files : List (Path × Int)}

/-- A new path goes behind the others, a known one keeps its place. -/
lemma map_fst_putFile : (putFile path level files).map Prod.fst =
    if path ∈ files.map Prod.fst then files.map Prod.fst else files.map Prod.fst ++ [path] := by
  unfold putFile
  split
  · rw [List.map_map]
    refine List.map_congr_left fun f _ => ?_
    by_cases hf : f.1 = path <;> simp [hf]
  · rw [List.map_append, List.map_singleton]

/-- Putting a file into the list leaves the paths before it in their order. -/
lemma prefix_map_fst_putFile :
    files.map Prod.fst <+: (putFile path level files).map Prod.fst := by
  rw [map_fst_putFile]
  split
  · exact List.prefix_refl _
  · exact List.prefix_append _ _

/-- Putting a file into the list keeps the paths distinct. -/
lemma nodup_map_fst_putFile (h : (files.map Prod.fst).Nodup) :
    ((putFile path level files).map Prod.fst).Nodup := by
  rw [map_fst_putFile]
  split
  · exact h
  · rename_i hpath
    rw [← List.concat_eq_append]
    exact List.Nodup.concat hpath h

/-- The file of a path alone, if it is there, has the level then, and is there if it was not. -/
theorem putFile_of_forall_eq (h : (files.map Prod.fst).Nodup) (hfiles : ∀ f ∈ files, f.1 = path) :
    putFile path level files = [(path, level)] := by
  match files with
  | [] => rfl
  | [f] =>
    obtain rfl := hfiles f List.mem_cons_self
    simp [putFile]
  | f :: f' :: _ =>
    have hne : f.1 ≠ f'.1 := by
      rintro heq
      simp [heq] at h
    exact absurd ((hfiles f (by simp)).trans (hfiles f' (by simp)).symm) hne

/-- Putting a file into the list leaves those of other paths. -/
lemma mem_putFile_of_ne {f : Path × Int} (hf : f ∈ files) (hne : f.1 ≠ path) :
    f ∈ putFile path level files := by
  unfold putFile
  split
  · exact List.mem_map.mpr ⟨f, hf, if_neg hne⟩
  · exact List.mem_append_left _ hf

/-! ### One setup -/

variable {s : LogSetup}

/-- A set-up leaves one console handler, with the level it asks for, in the place of the one
before. -/
lemma consoleLevels_handlersAfter :
    consoleLevels (handlersAfter resolve s hs) = s.consoleLevel :: (consoleLevels hs).tail := by
  have hdrop (path : Option Path) (hs : List LogHandler) :
      consoleLevels (dropFiles resolve path hs) = consoleLevels hs :=
    filterMap_dropFiles hs (fun _ _ => rfl) path
  have hset (path : Path) (hs : List LogHandler) :
      consoleLevels (setFile resolve path s.fileLevel hs) = consoleLevels hs :=
    filterMap_setFile hs (fun _ _ => rfl) path s.fileLevel
  rw [← consoleLevels_setConsole, handlersAfter]
  cases s.file <;> cases s.replace <;> simp [hdrop, hset]

/-- The handlers of others do not change. -/
theorem foreign_handlersAfter : foreign (handlersAfter resolve s hs) = foreign hs := by
  have hconsole (hs : List LogHandler) : foreign (setConsole s.consoleLevel hs) = foreign hs := by
    simp only [foreign_eq_filterMap]
    exact filterMap_setConsole hs (fun _ => rfl) s.consoleLevel
  have hdrop (path : Option Path) (hs : List LogHandler) :
      foreign (dropFiles resolve path hs) = foreign hs := by
    simp only [foreign_eq_filterMap]
    exact filterMap_dropFiles hs (fun _ _ => rfl) path
  have hset (path : Path) (hs : List LogHandler) :
      foreign (setFile resolve path s.fileLevel hs) = foreign hs := by
    simp only [foreign_eq_filterMap]
    exact filterMap_setFile hs (fun _ _ => rfl) path s.fileLevel
  rw [handlersAfter]
  cases s.file <;> cases s.replace <;> simp [hconsole, hdrop, hset]

/-- The path that a setup asks for, resolved. -/
def askedPath (resolve : Path → Path) (s : LogSetup) : Option Path :=
  s.file.map resolve

/-- The files that a setup keeps. -/
def keptFiles (resolve : Path → Path) (s : LogSetup) (files : List (Path × Int)) :
    List (Path × Int) :=
  if s.replace then files.filter fun f => askedPath resolve s == some f.1 else files

/-- The files after a setup: those that it keeps, with the one that it asks for. -/
def filesAfter (resolve : Path → Path) (s : LogSetup) (files : List (Path × Int)) :
    List (Path × Int) :=
  match askedPath resolve s with
  | none => keptFiles resolve s files
  | some path => putFile path s.fileLevel (keptFiles resolve s files)

/-- The own files after a set-up are those the set-up asks for and those it keeps. -/
lemma ownFiles_handlersAfter (h : KnowsResolved resolve hs) :
    ownFiles (handlersAfter resolve s hs) = filesAfter resolve s (ownFiles hs) := by
  have hconsole (hs : List LogHandler) : ownFiles (setConsole s.consoleLevel hs) = ownFiles hs :=
    filterMap_setConsole hs (fun _ => rfl) s.consoleLevel
  have hset : KnowsResolved resolve (setConsole s.consoleLevel hs) := by
    rwa [KnowsResolved, ownPaths, hconsole, ← ownPaths]
  have hdrop (path : Option Path) :
      KnowsResolved resolve (dropFiles resolve path (setConsole s.consoleLevel hs)) := by
    intro p hp
    rw [ownPaths, ownFiles_dropFiles _ hset] at hp
    exact hset p ((List.filter_sublist.map Prod.fst).subset hp)
  rw [handlersAfter, filesAfter, keptFiles, askedPath]
  cases s.file <;> cases s.replace <;>
    simp [hconsole, ownFiles_dropFiles _ hset, ownFiles_setFile _ hset,
      ownFiles_setFile _ (hdrop _)]

/-- Dropping files keeps the paths distinct. -/
lemma nodup_keptFiles (h : (files.map Prod.fst).Nodup) :
    ((keptFiles resolve s files).map Prod.fst).Nodup := by
  unfold keptFiles
  split
  · exact h.sublist (List.filter_sublist.map Prod.fst)
  · exact h

/-- A set-up keeps the paths of the own files distinct. -/
lemma nodup_filesAfter (h : (files.map Prod.fst).Nodup) :
    ((filesAfter resolve s files).map Prod.fst).Nodup := by
  unfold filesAfter
  split
  · exact nodup_keptFiles h
  · exact nodup_map_fst_putFile (nodup_keptFiles h)

/-- A setup that replaces leaves the file that it asks for, or none. -/
theorem filesAfter_of_replace (h : (files.map Prod.fst).Nodup) (hreplace : s.replace = true) :
    filesAfter resolve s files = ((askedPath resolve s).map (·, s.fileLevel)).toList := by
  have hkept : keptFiles resolve s files =
      files.filter fun f => askedPath resolve s == some f.1 := if_pos hreplace
  unfold filesAfter
  cases hasked : askedPath resolve s with
  | none => simp [hkept, hasked]
  | some path =>
    refine putFile_of_forall_eq (nodup_keptFiles h) fun f hf => ?_
    rw [hkept, List.mem_filter, hasked, beq_iff_eq, Option.some.injEq] at hf
    exact hf.2.symm

/-- A setup that does not replace drops no file. -/
theorem prefix_filesAfter (hreplace : s.replace = false) :
    files.map Prod.fst <+: (filesAfter resolve s files).map Prod.fst := by
  have hkept : keptFiles resolve s files = files := if_neg (by simp [hreplace])
  unfold filesAfter
  rw [hkept]
  split
  · exact List.prefix_refl _
  · exact prefix_map_fst_putFile

/-- A setup that does not replace leaves the files as they are that it does not ask for. -/
theorem mem_filesAfter (hreplace : s.replace = false) {f : Path × Int} (hf : f ∈ files)
    (hne : askedPath resolve s ≠ some f.1) : f ∈ filesAfter resolve s files := by
  have hkept : keptFiles resolve s files = files := if_neg (by simp [hreplace])
  unfold filesAfter
  rw [hkept]
  split
  · exact hf
  · rename_i path hasked
    refine mem_putFile_of_ne hf ?_
    rintro rfl
    exact hne hasked

/-- A file there after a set-up was asked for, or was there before. -/
lemma eq_or_mem_of_mem_filesAfter {p : Path} (h : p ∈ (filesAfter resolve s files).map Prod.fst) :
    askedPath resolve s = some p ∨ p ∈ files.map Prod.fst := by
  have hkept (hp : p ∈ (keptFiles resolve s files).map Prod.fst) : p ∈ files.map Prod.fst := by
    unfold keptFiles at hp
    split at hp
    · exact (List.filter_sublist.map Prod.fst).subset hp
    · exact hp
  unfold filesAfter at h
  split at h
  · exact .inr (hkept h)
  · rename_i path hasked
    rw [map_fst_putFile] at h
    split at h
    · exact .inr (hkept h)
    · rcases List.mem_append.mp h with h | h
      · exact .inr (hkept h)
      · exact .inl (List.mem_singleton.mp h ▸ hasked)

/-- The own handlers are in order, and the others are as given: at most one handler writes to the
console, and at most one to each file, which is known by its resolved path. -/
structure InOrder (resolve : Path → Path) (others hs : List LogHandler) : Prop where
  console : (consoleLevels hs).length ≤ 1
  nodup : (ownPaths hs).Nodup
  resolved : KnowsResolved resolve hs
  others : foreign hs = others

variable {others : List LogHandler}

/-- Handlers of others alone are in order. -/
theorem inOrder_of_foreign {hs : List LogHandler} (h : ∀ x ∈ hs, x.own = false) :
    InOrder resolve hs hs := by
  have hconsole : consoleLevels hs = [] := by
    refine List.filterMap_eq_nil_iff.mpr fun x hx => ?_
    match x, h x hx with
    | ⟨false, _, _⟩, _ => rfl
  have hfiles : ownFiles hs = [] := by
    refine List.filterMap_eq_nil_iff.mpr fun x hx => ?_
    match x, h x hx with
    | ⟨false, _, _⟩, _ => rfl
  refine ⟨by simp [hconsole], by simp [ownPaths, hfiles],
    by simp [KnowsResolved, ownPaths, hfiles], ?_⟩
  exact List.filter_eq_self.mpr fun x hx => by simp [h x hx]

/-- The journal after setups, one after the other. -/
def setUpAll (resolve : Path → Path) (j : Journal) (setups : List LogSetup) : Journal :=
  setups.foldl (fun j s => j.setUp resolve s) j

section

variable (hstable : ∀ p, resolve (resolve p) = resolve p)

include hstable

/-- A setup leaves the handlers in order. -/
theorem InOrder.step {hs : List LogHandler} (h : InOrder resolve others hs) (s : LogSetup) :
    InOrder resolve others (handlersAfter resolve s hs) := by
  refine ⟨?_, ?_, fun p hp => ?_, ?_⟩
  · have hlength := h.console
    rw [consoleLevels_handlersAfter, List.length_cons, List.length_tail]
    omega
  · rw [ownPaths, ownFiles_handlersAfter _ h.resolved]
    exact nodup_filesAfter h.nodup
  · rw [ownPaths, ownFiles_handlersAfter _ h.resolved] at hp
    rcases eq_or_mem_of_mem_filesAfter hp with hasked | hp
    · obtain ⟨p', -, rfl⟩ := Option.map_eq_some_iff.mp hasked
      exact hstable p'
    · exact h.resolved p hp
  · rw [foreign_handlersAfter, h.others]

/-! ### Any number of setups -/

/-- Handlers are in order after every run, by induction on the set-ups. -/
lemma InOrder.run {j : Journal} (h : InOrder resolve others j.handlers)
    (setups : List LogSetup) : InOrder resolve others (j.setUpAll resolve setups).handlers := by
  induction setups generalizing j with
  | nil => exact h
  | cons s setups ih => exact ih (j := j.setUp resolve s) (h.step hstable s)

end

/-- However often a journal is set up that had handlers of others only, after the last setup it has
one console handler of its own, at the level that was asked for last, and no two of its own file
handlers have the same resolved path. If the last setup replaces, they are the one for the path that
it asks for, or none. If it does not, none is dropped, and those that it does not ask for stay as
they are. The handlers of others are all there as they were and in their order. This holds for every
way of resolving paths that is stable: what a path resolves to resolves to itself. -/
theorem handlers_setUpAll (hstable : ∀ p, resolve (resolve p) = resolve p) {j : Journal}
    (h : ∀ x ∈ j.handlers, x.own = false) (setups : List LogSetup) (s : LogSetup) :
    let before := (j.setUpAll resolve setups).handlers
    let after := (j.setUpAll resolve (setups ++ [s])).handlers
    consoleLevels after = [s.consoleLevel] ∧
    ((ownPaths after).map resolve).Nodup ∧
    (s.replace = true →
      ownFiles after = ((s.file.map resolve).map (·, s.fileLevel)).toList) ∧
    (s.replace = false → ownPaths before <+: ownPaths after ∧
      ∀ f ∈ ownFiles before, s.file.map resolve ≠ some f.1 → f ∈ ownFiles after) ∧
    after.filter (fun x => !x.own) = j.handlers := by
  intro before after
  have hbefore : InOrder resolve j.handlers before := (inOrder_of_foreign h).run hstable setups
  have hafter : after = handlersAfter resolve s before := by
    simp only [after, setUpAll, List.foldl_append]
    rfl
  have horder : InOrder resolve j.handlers after := hafter ▸ hbefore.step hstable s
  have hfiles : ownFiles after = filesAfter resolve s (ownFiles before) := by
    rw [hafter, ownFiles_handlersAfter _ hbefore.resolved]
  refine ⟨?_, ?_, fun hreplace => ?_, fun hreplace => ⟨?_, fun f hf hne => ?_⟩, horder.others⟩
  · have htail : (consoleLevels before).tail = [] := by
      rw [← List.length_eq_zero_iff, List.length_tail]
      have hlength := hbefore.console
      omega
    rw [hafter, consoleLevels_handlersAfter, htail]
  · rw [List.map_congr_left horder.resolved, List.map_id']
    exact horder.nodup
  · rw [hfiles, filesAfter_of_replace hbefore.nodup hreplace, askedPath]
  · rw [ownPaths, ownPaths, hfiles]
    exact prefix_filesAfter hreplace
  · rw [hfiles]
    exact mem_filesAfter hreplace hf hne

/-- A console and a file of others stay where they are. The log file that is asked for twice, in two
spellings, has one handler, beside that of the file that was asked for in between. -/
theorem handlers_setUpAll_of_two_files :
    let foreign : List LogHandler := [⟨false, .console, 5⟩, ⟨false, .file ⟨"", ["a.log"]⟩, 7⟩]
    let j : Journal := { handlers := foreign }
    let setups : List LogSetup :=
      [{ file := some ⟨"", ["a.log"]⟩ }, { file := some ⟨"", ["b.log"]⟩, replace := false }]
    let s : LogSetup :=
      { consoleLevel := 40, file := some ⟨"", ["logs", "..", "a.log"]⟩, fileLevel := 20,
        replace := false }
    let after := (j.setUpAll Path.resolve (setups ++ [s])).handlers
    (∀ p : Path, p.resolve.resolve = p.resolve) ∧ (∀ x ∈ j.handlers, x.own = false) ∧
      ownFiles after = [(⟨"", ["a.log"]⟩, 20), (⟨"", ["b.log"]⟩, 10)] ∧
      consoleLevels after = [40] ∧ after.filter (fun x => !x.own) = foreign := by
  intro foreign j setups s after
  have hforeign : ∀ x ∈ j.handlers, x.own = false := by decide
  obtain ⟨hconsole, -, -, -, hothers⟩ :=
    handlers_setUpAll Path.resolve_resolve hforeign setups s
  exact ⟨Path.resolve_resolve, hforeign, by decide, hconsole, hothers⟩

end Journal

end Requirements
