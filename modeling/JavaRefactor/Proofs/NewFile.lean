import JavaRefactor.Proofs.AllOrNothing
import JavaRefactor.Proofs.Directories

/-! # New files stay inside the project

The source directory is found or made below the root of the project, and the directory of a package
below the source directory, as long as no part of the package's name begins with a slash. A part
that does is an absolute path, and the root of the project has no influence on where the file goes.
-/

namespace JavaRefactor

open JavaRefactor.Path (Component components)

namespace Disk

variable {d : Disk} {place : Place} {path : String}

def HasFileNames (d : Disk) : Prop := ∀ e ∈ d.entries, ∀ name ∈ e.1, '/' ∉ name.toList

theorem isDirectory_iff : d.isDirectory path = true ↔
    ∃ place, d.find path = .ok (place, .directory) := by
  unfold isDirectory
  split
  next place h => simp [h]
  next h => exact iff_of_false (by simp) fun ⟨place, hplace⟩ => h place hplace

theorem ne_empty_of_find {entry : Entry} (h : d.find path = .ok (place, entry)) : path ≠ "" :=
  (placeOf_eq_ok_iff.mp (find_eq_ok_iff.mp h).1).2.1

theorem HasFileNames.not_mem_of_visit (hd : d.HasFileNames) {v : Visit} (hv : v ∈ d.walk path) :
    ∀ name ∈ v.names, '/' ∉ name.toList := by
  unfold walk at hv
  split at hv
  next => cases hv
  next place _ _ =>
    obtain ⟨e, he, rfl⟩ := List.mem_map.mp hv
    intro name hname
    have hmem := (mem_sortBy _).mp he
    have hbelow {e : Place × Entry} (he : e ∈ d.entries.filter fun e => place.isPrefixOf e.1)
        (hname : name ∈ e.1) : '/' ∉ name.toList := hd e (List.mem_filter.mp he).1 name hname
    split at hmem
    next =>
      rcases List.mem_cons.mp hmem with rfl | hmem
      · simp at hname
      · exact hbelow hmem (List.mem_of_mem_drop hname)
    next => exact hbelow hmem (List.mem_of_mem_drop hname)

end Disk

namespace Project

variable {d left : Disk} {root package fileName directory : String} {template : Template}
  {tree : SourceTree} {file : NewFile} {place : Place}

def isRelative (package : String) : Bool :=
  (packageParts (Text.trim package)).all fun part => !Path.isAbsolute part.toList

def packageNames (package : String) : List (List Char) :=
  (packageParts (Text.trim package)).flatMap fun part => Path.namesIn part.toList

/-! ### The source directory -/

theorem isPlain_directory (tree : SourceTree) : Path.IsPlain tree.directory.toList := by
  apply Path.isPlain_of_no_dots <;> cases tree <;> decide

theorem components_directory (tree : SourceTree) :
    components tree.directory = (Path.namesIn tree.directory.toList).map .normal := by
  cases tree <;> rfl

theorem namesOf_directory (tree : SourceTree) :
    Disk.namesOf tree.directory = (Path.namesIn tree.directory.toList).map String.ofList := by
  cases tree <;> rfl

/-- The source directory is reached from the root through some modules, and ends as its tree
says. -/
theorem exists_modules (hd : d.HasFileNames) (hroot : root ≠ "") (tree : SourceTree) :
    ∃ modules : List (List Char),
      components (sourceDirectory d root tree) = components root ++ modules.map .normal ∧
      components tree.directory <:+ components (sourceDirectory d root tree) ∧
      sourceDirectory d root tree ≠ "" := by
  unfold sourceDirectory
  simp only
  split
  next path hfind =>
    -- found on a walk, which adds names of the disk to the root and passes over hidden ones
    have htail := List.find?_some hfind
    obtain ⟨v, hv, rfl⟩ := List.mem_map.mp (List.mem_of_find?_eq_some hfind)
    obtain ⟨hwalk, hvisible⟩ := List.mem_filter.mp hv
    have hplain : ∀ name ∈ v.names, Path.IsPlain name.toList := by
      intro name hname
      apply Path.isPlain_of_name (hd.not_mem_of_visit hwalk name hname)
      intro hdot
      simp only [Bool.and_eq_true, Bool.not_eq_true', List.any_eq_false] at hvisible
      exact hvisible.2 name hname (by simpa [isHidden] using hdot)
    refine ⟨_, Path.components_foldl_join hplain hroot, ?_, Path.foldl_join_ne_empty hroot⟩
    rw [Path.endsWith, List.isPrefixOf_iff_prefix, List.reverse_prefix] at htail
    exact htail
  next =>
    have hjoin := Path.components_join hroot (isPlain_directory tree).relative
    rw [(isPlain_directory tree).steps_eq] at hjoin
    refine ⟨_, hjoin, ?_, Path.join_ne_empty hroot⟩
    rw [hjoin, components_directory]
    exact List.suffix_append _ _

theorem suffix_of_components {modules : List (List Char)} {entry : Entry}
    (hroot : d.find root = .ok (place, entry))
    (h : components tree.directory <:+ components root ++ modules.map .normal) :
    Disk.namesOf tree.directory <:+ place ++ modules.map String.ofList := by
  rw [components_directory] at h
  rw [namesOf_directory]
  generalize Path.namesIn tree.directory.toList = tail at h
  obtain ⟨before, h⟩ := h
  rcases List.append_eq_append_iff.mp h with ⟨inner, hroot', hmodules⟩ | ⟨inner, -, hmodules⟩
  · -- the names begin in the path of the root
    obtain ⟨first, second, rfl, rfl, hsecond⟩ := List.map_eq_append_iff.mp hmodules
    obtain rfl := List.map_injective_iff.mpr (fun _ _ => Component.normal.inj) hsecond
    obtain ⟨above, rfl⟩ := Disk.suffix_of_find hroot ⟨before, hroot'.symm⟩
    exact ⟨above, by simp⟩
  · obtain ⟨first, second, rfl, -, hsecond⟩ := List.map_eq_append_iff.mp hmodules
    obtain rfl := List.map_injective_iff.mpr (fun _ _ => Component.normal.inj) hsecond
    exact ⟨place ++ first.map String.ofList, by simp⟩

/-! ### The directory of a package -/

theorem isRelative_of_not_mem (h : '/' ∉ package.toList) : isRelative package = true := by
  rw [isRelative, List.all_eq_true]
  intro part hpart
  obtain ⟨cs, hcs, rfl⟩ := List.mem_map.mp hpart
  rw [String.toList_ofList, Path.isAbsolute_eq_false_of_not_mem]
  · rfl
  · intro hslash
    apply h
    have htrim := (Text.mem_of_mem_split hcs hslash).1
    rw [Text.trim, String.toList_ofList, List.mem_reverse] at htrim
    have hmem := (List.dropWhile_sublist _).mem htrim
    exact (List.dropWhile_sublist _).mem (List.mem_reverse.mp hmem)

theorem components_packagePath {source : String} (h : isRelative package = true)
    (hsource : source ≠ "") : components (packagePath source (Text.trim package)) =
      components source ++ (packageNames package).map .normal := by
  apply Path.components_foldl_join _ hsource
  intro part hpart
  have hrelative : Path.isAbsolute part.toList = false := by
    simpa using List.all_eq_true.mp h part hpart
  obtain ⟨cs, hcs, rfl⟩ := List.mem_map.mp hpart
  apply Path.isPlain_of_no_dots hrelative
  intro hdot
  rw [String.toList_ofList] at hdot
  exact (Text.mem_of_mem_split hcs hdot).2 rfl

theorem exists_absolute (h : isRelative package = false) :
    ∃ part ∈ packageParts (Text.trim package), Path.isAbsolute part.toList := by
  simpa [isRelative] using h

theorem packageDirectory_eq_ok (h : packageDirectory d root package tree = ⟨.ok directory, left⟩) :
    ∃ place, d.find root = .ok (place, .directory) ∧
      packagePath (sourceDirectory d root tree) (Text.trim package) = directory ∧
      d.makeDirectories directory = ⟨.ok (), left⟩ := by
  unfold packageDirectory at h
  split at h
  next => cases h
  next hroot =>
    obtain ⟨place, hplace⟩ := Disk.isDirectory_iff.mp (by simpa using hroot)
    simp only at h
    split at h
    next => cases h
    next =>
      generalize packagePath (sourceDirectory d root tree) (Text.trim package) = path at h ⊢
      generalize hmade : d.makeDirectories path = made at h
      obtain ⟨result, disk⟩ := made
      cases result with
      | error => cases h
      | ok =>
        cases h
        exact ⟨place, hplace, rfl, hmade⟩

/-! ### The file -/

set_option maxRecDepth 8192 in
theorem isPart_dot_slash : Identifier.isPart '.' = false ∧ Identifier.isPart '/' = false := by
  decide

theorem isPart_of_fault?_eq_none {name : String} (h : Identifier.fault? name = none) :
    name.toList ≠ [] ∧ ∀ c ∈ name.toList, Identifier.isPart c = true := by
  unfold Identifier.fault? at h
  split at h
  next => cases h
  next first rest hname =>
    rw [hname]
    split at h
    next => cases h
    next hstart =>
      split at h
      next => cases h
      next hrest =>
        refine ⟨by simp, List.forall_mem_cons.mpr ⟨?_, ?_⟩⟩
        · rw [Identifier.isPart, (by simpa using hstart : Identifier.isStart first = true)]
          rfl
        · intro c hc
          simpa using List.find?_eq_none.mp hrest c hc

theorem of_validateFor_eq_ok {name : String} (h : Identifier.validateFor .type name = .ok ()) :
    name.toList ≠ [] ∧ '.' ∉ name.toList ∧ '/' ∉ name.toList := by
  have hfault : Identifier.fault? name = none := by
    unfold Identifier.validateFor Identifier.faultFor? at h
    split at h
    next => cases h
    next hnone => exact (Option.or_eq_none_iff.mp hnone).1
  obtain ⟨hne, hpart⟩ := isPart_of_fault?_eq_none hfault
  refine ⟨hne, fun hdot => ?_, fun hslash => ?_⟩
  · simpa [isPart_dot_slash.1] using hpart '.' hdot
  · simpa [isPart_dot_slash.2] using hpart '/' hslash

theorem newFile_eq_ok (h : newFile d root package fileName template tree = ⟨.ok file, left⟩) :
    Identifier.validateFor .type (typeNameOf fileName) = .ok () ∧
      ∃ directory, packageDirectory d root package tree = ⟨.ok directory, left⟩ ∧
        file.path = Path.join directory (typeNameOf fileName ++ ".java") := by
  unfold newFile at h
  generalize typeNameOf fileName = name at h ⊢
  simp only at h
  split at h
  next => cases h
  next hname =>
    generalize hmade : packageDirectory d root package tree = made at h
    obtain ⟨result, disk⟩ := made
    cases result with
    | error => cases h
    | ok directory =>
      obtain ⟨hfile, rfl⟩ := Outcome.mk.inj h
      obtain rfl := Except.ok.inj hfile
      exact ⟨hname, directory, rfl, rfl⟩

theorem components_fileName {name : String} (h : Identifier.validateFor .type name = .ok ())
    (hdirectory : directory ≠ "") : components (Path.join directory (name ++ ".java")) =
      components directory ++ [.normal (name ++ ".java").toList] := by
  obtain ⟨hne, hdot, hslash⟩ := of_validateFor_eq_ok h
  have htext : (name ++ ".java").toList = name.toList ++ ['.', 'j', 'a', 'v', 'a'] := by
    rw [String.toList_append]
    rfl
  have hslash' : '/' ∉ (name ++ ".java").toList := by
    rw [htext, List.mem_append, not_or]
    exact ⟨hslash, by decide⟩
  have hplain : Path.IsPlain (name ++ ".java").toList := by
    apply Path.isPlain_of_name hslash'
    rw [htext]
    cases hcs : name.toList with
    | nil => exact absurd hcs hne
    | cons c cs =>
      rintro ⟨⟩
      exact hdot (hcs ▸ List.mem_cons_self)
  rw [Path.components_join hdirectory hplain.relative, hplain.steps_eq, Path.namesIn,
    Path.segments, Text.split_of_not_mem hslash']
  simp [htext]

end Project

namespace Command

open Project

variable {d made left : Disk} {request : NewFileRequest} {path directory text : String}
  {place : Place} {modules : List (List Char)}

def NewFileRequest.javaFile (request : NewFileRequest) : String :=
  typeNameOf request.fileName ++ ".java"

/-- A path leads from the root of the project through modules down to a source directory, and from
there through the directories of the package to the file. The directories exist, and only what is
below the root has changed. -/
structure Inside (d left : Disk) (request : NewFileRequest) (path : String) (place : Place)
    (modules : List (List Char)) (directory : String) : Prop where
  root : d.find request.root = .ok (place, .directory)
  source : components request.tree.directory <:+ components request.root ++ modules.map .normal
  sourcePlace : Disk.namesOf request.tree.directory <:+ place ++ modules.map String.ofList
  package : components directory =
    components request.root ++ (modules ++ packageNames request.package).map .normal
  packagePlace : left.find directory =
    .ok (place ++ (modules ++ packageNames request.package).map String.ofList, .directory)
  file : components path = components directory ++ [.normal request.javaFile.toList]
  changed : d.ChangedBelow left place

/-- A path is absolute whatever the project, and the root of the project has no part in it. -/
structure Outside (request : NewFileRequest) (path : String) : Prop where
  absolute : Path.isAbsolute path.toList = true
  anywhere : ∀ source,
    path = Path.join (packagePath source (Text.trim request.package)) request.javaFile
  not_below : Path.isAbsolute request.root.toList = false → ¬ Path.IsBelow request.root path

theorem inside_of_newFile {file : NewFile} (hd : d.HasFileNames)
    (hpackage : isRelative request.package = true)
    (h : newFile d request.root request.package request.fileName request.template request.tree =
      ⟨.ok file, left⟩) :
    ∃ place modules directory, Inside d left request file.path place modules directory := by
  obtain ⟨hname, directory, hdirectory, hfile⟩ := newFile_eq_ok h
  obtain ⟨place, hroot, rfl, hmade⟩ := packageDirectory_eq_ok hdirectory
  obtain ⟨modules, hmodules, htree, hsource⟩ :=
    exists_modules hd (Disk.ne_empty_of_find hroot) request.tree
  have hne : packagePath (sourceDirectory d request.root request.tree)
      (Text.trim request.package) ≠ "" := Path.foldl_join_ne_empty hsource
  have hpath := components_packagePath hpackage hsource
  rw [hmodules, List.append_assoc, ← List.map_append] at hpath
  obtain ⟨hfind, hchanged⟩ := Disk.makeDirectories_below hroot hpath hne hmade
  rw [hmodules] at htree
  exact ⟨place, modules, _, hroot, htree, suffix_of_components hroot htree, hpath, hfind,
    hfile ▸ components_fileName hname hne, hchanged⟩

theorem outside_of_newFile {file : NewFile} (hpackage : isRelative request.package = false)
    (h : newFile d request.root request.package request.fileName request.template request.tree =
      ⟨.ok file, left⟩) : Outside request file.path := by
  obtain ⟨-, directory, hdirectory, hfile⟩ := newFile_eq_ok h
  obtain ⟨-, -, rfl, -⟩ := packageDirectory_eq_ok hdirectory
  have hpart := exists_absolute hpackage
  have habsolute : Path.isAbsolute file.path.toList = true := by
    rw [hfile]
    exact Path.isAbsolute_join (Or.inl (Path.isAbsolute_foldl_join (Or.inr hpart)))
  refine ⟨habsolute, fun source => ?_, fun hroot hbelow => ?_⟩
  · rw [hfile, packagePath, Path.foldl_join_of_absolute hpart _ source]
    rfl
  · rw [hbelow.isAbsolute_eq, hroot] at habsolute
    cases habsolute

theorem createFile_eq_ok {answer : NewFileAnswer} (h : createFile d request = ⟨.ok answer, left⟩) :
    ∃ file made, newFile d request.root request.package request.fileName request.template
      request.tree = ⟨.ok file, made⟩ ∧ answer.file = file.path ∧
      made.write file.path file.contents = .ok left := by
  unfold createFile at h
  simp only at h
  generalize newFile d request.root request.package request.fileName request.template
    request.tree = prepared at h ⊢
  obtain ⟨result, made⟩ := prepared
  cases result with
  | error => cases h
  | ok file =>
    simp only at h
    split at h
    next => cases h
    next =>
      split at h
      next => cases h
      next hwrite =>
        cases h
        exact ⟨file, made, rfl, rfl, writeText_eq_ok_iff.mp hwrite⟩

theorem Inside.write (h : Inside d made request path place modules directory)
    (hwrite : made.write path text = .ok left) :
    Inside d left request path place modules directory ∧
      left.find path = .ok (place ++ (modules ++ packageNames request.package).map String.ofList ++
        [request.javaFile], .file text.toUTF8) := by
  obtain ⟨q, hwrote⟩ := Disk.exists_wrote hwrite
  have hfile : components path = components directory ++ [request.javaFile.toList].map .normal :=
    h.file
  obtain rfl := Disk.placeOf_of_components h.packagePlace hfile hwrote.placeOf
  simp only [List.map_cons, List.map_nil, String.ofList_toList] at hwrote
  have hdirectory : made.placeOf path ≠
      .ok (place ++ (modules ++ packageNames request.package).map String.ofList) := by
    rw [hwrote.placeOf]
    simp
  refine ⟨{ h with
    packagePlace := (Disk.find_write_iff hwrite hdirectory).mpr h.packagePlace
    changed := h.changed.trans ((Disk.changedBelow_of_others hwrote.others).mono ?_) },
    hwrote.find⟩
  rw [List.append_assoc]
  exact List.prefix_append _ _

/-- New files stay inside the project, unless a part of the name of their package is an absolute
path: then the file goes where that path leads, whatever the project. -/
theorem newFile_inside (d : Disk) (hd : d.HasFileNames) (request : NewFileRequest) :
    (∀ file left, newFile d request.root request.package request.fileName request.template
        request.tree = ⟨.ok file, left⟩ →
      (isRelative request.package = true →
        ∃ place modules directory, Inside d left request file.path place modules directory) ∧
      (isRelative request.package = false → Outside request file.path)) ∧
    (∀ answer left, createFile d request = ⟨.ok answer, left⟩ →
      (isRelative request.package = true → ∃ place modules directory bytes,
        Inside d left request answer.file place modules directory ∧
        left.find answer.file = .ok (place ++
          (modules ++ packageNames request.package).map String.ofList ++ [request.javaFile],
          .file bytes)) ∧
      (isRelative request.package = false → Outside request answer.file)) ∧
    ('/' ∉ request.package.toList → isRelative request.package = true) := by
  refine ⟨fun file left h => ?_, fun answer left h => ?_, isRelative_of_not_mem⟩
  · exact ⟨(inside_of_newFile hd · h), (outside_of_newFile · h)⟩
  · obtain ⟨file, made, hmade, hanswer, hwrite⟩ := createFile_eq_ok h
    rw [hanswer]
    refine ⟨fun hpackage => ?_, (outside_of_newFile · hmade)⟩
    obtain ⟨place, modules, directory, hinside⟩ := inside_of_newFile hd hpackage hmade
    exact ⟨place, modules, directory, _, hinside.write hwrite⟩

end Command

namespace Sample

open Command

def projectDisk : Disk :=
  ⟨[(["work"], .directory), (["work", "proj"], .directory), (["work", "proj", "m"], .directory),
    (["work", "proj", "m", "src"], .directory), (["work", "proj", "m", "src", "main"], .directory),
    (["work", "proj", "m", "src", "main", "java"], .directory)], ["work"], fun _ a b => b < a⟩

def widget (package : String) : NewFileRequest :=
  { root := "proj", package, fileName := " Widget.java", template := .classType
    tree := .production }

theorem projectDisk_hasFileNames : projectDisk.HasFileNames := by
  unfold Disk.HasFileNames
  decide

theorem widget_created :
    ((createFile projectDisk (widget "com.example")).result.toOption.map (·.file) =
      some "proj/m/src/main/java/com/example/Widget.java" ∧
    (createFile projectDisk (widget "/")).result.toOption.map (·.file) = some "/Widget.java") ∧
    Project.isRelative "com.example" = true ∧ Project.isRelative "/" = false := by
  decide +kernel

end Sample

namespace Command

theorem newFile_inside_sample : Sample.projectDisk.HasFileNames ∧
    (∃ left place modules directory, createFile Sample.projectDisk (Sample.widget "com.example") =
        ⟨.ok ⟨"proj/m/src/main/java/com/example/Widget.java"⟩, left⟩ ∧
      Inside Sample.projectDisk left (Sample.widget "com.example")
        "proj/m/src/main/java/com/example/Widget.java" place modules directory) ∧
    ∃ left, createFile Sample.projectDisk (Sample.widget "/") = ⟨.ok ⟨"/Widget.java"⟩, left⟩ ∧
      Outside (Sample.widget "/") "/Widget.java" := by
  have hd := Sample.projectDisk_hasFileNames
  obtain ⟨⟨hinside, houtside⟩, hrelative, habsolute⟩ := Sample.widget_created
  obtain ⟨⟨_⟩, left, hcreate, rfl⟩ := Outcome.exists_of_toOption hinside
  obtain ⟨⟨_⟩, left', hcreate', rfl⟩ := Outcome.exists_of_toOption houtside
  obtain ⟨-, hcreated, -⟩ := newFile_inside Sample.projectDisk hd (Sample.widget "com.example")
  obtain ⟨-, hcreated', -⟩ := newFile_inside Sample.projectDisk hd (Sample.widget "/")
  obtain ⟨place, modules, directory, -, hfile, -⟩ := (hcreated _ left hcreate).1 hrelative
  exact ⟨hd, ⟨left, place, modules, directory, hcreate, hfile⟩,
    left', hcreate', (hcreated' _ left' hcreate').2 habsolute⟩

end Command

end JavaRefactor
