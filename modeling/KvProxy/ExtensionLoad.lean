import KvProxy.ConfigReads

/-!
# Loading the extension

`Extension::load` opens the file of an extension and looks for its functions, each under
the name of the extension and a suffix.  It reports what is missing and goes on; `loadExt`
then asks for each function, and the process exits when there is none.

What `dlopen` and `dlsym` find is a parameter: the symbols of a file that can be opened.

* `find_load` — the functions that are there after a first `load`;
* `loadExt_eq_some_iff` — `loadExt` returns when the file has all of them.
-/

namespace KvProxy

/-- The functions of an extension. -/
inductive ExtFunc where
  | parseReq
  | createReq
  | createReqAsync
  | parseResp
  | createResp
  | extVersion
  deriving DecidableEq

/-- What stands behind the name of the extension. -/
def ExtFunc.suffix : ExtFunc → Text
  | .parseReq => "_parse_req".toList
  | .createReq => "_create_req".toList
  | .createReqAsync => "_create_req_async".toList
  | .parseResp => "_parse_resp".toList
  | .createResp => "_create_resp".toList
  | .extVersion => "_ext_version".toList

/-- The static members of `Extension`: `ext_path`, and for each kind of function a map from
the names of the extensions. -/
structure Extension (Sym : Type) where
  extPath : Text
  funcs : ExtFunc → SortedMap Text Sym

namespace Extension

variable {Sym : Type}

/-- The static members when the process starts. -/
def new : Extension Sym := ⟨[], fun _ => ∅⟩

/-- `setExtPath(path)`. -/
def setExtPath (ext : Extension Sym) (path : Text) : Extension Sym := { ext with extPath := path }

/-- What `load` does for one of the functions; one that is missing is reported. -/
def loadSym (symbols : Text → Option Sym) (extName : Text) (ext : Extension Sym) (f : ExtFunc) :
    Extension Sym :=
  match symbols (extName ++ f.suffix) with
  | some sym =>
      { ext with funcs := Function.update ext.funcs f ((ext.funcs f).insert extName sym) }
  | none => ext

/-- The functions in the order in which `load` looks for them. -/
def loadOrder : List ExtFunc :=
  [.parseReq, .createReq, .createReqAsync, .parseResp, .createResp, .extVersion]

/-- `load(ext_name, filename)`. -/
def load (dlopen : Text → Option (Text → Option Sym)) (ext : Extension Sym)
    (extName filename : Text) : Bool × Extension Sym :=
  if ext.extPath = [] then (false, ext)
  else
    match dlopen (ext.extPath ++ '/' :: filename) with
    | none => (false, ext)
    | some symbols => (true, loadOrder.foldl (loadSym symbols extName) ext)

/-- What `findParseReq` and its siblings do, each with its own map. -/
def find (f : ExtFunc) (ext : Extension Sym) (extName : Text) : Option Sym :=
  (ext.funcs f).lookup extName

/-- `findParseReq(ext_name)`. -/
def findParseReq : Extension Sym → Text → Option Sym := find .parseReq

/-- `findCreateReq(ext_name)`. -/
def findCreateReq : Extension Sym → Text → Option Sym := find .createReq

/-- `findCreateReqAsync(ext_name)`. -/
def findCreateReqAsync : Extension Sym → Text → Option Sym := find .createReqAsync

/-- `findParseResp(ext_name)`. -/
def findParseResp : Extension Sym → Text → Option Sym := find .parseResp

/-- `findCreateResp(ext_name)`. -/
def findCreateResp : Extension Sym → Text → Option Sym := find .createResp

/-- `findExtVersion(ext_name)`. -/
def findExtVersion : Extension Sym → Text → Option Sym := find .extVersion

/-- A function of an extension in a file, if the file can be opened and has it. -/
def symbolOf (dlopen : Text → Option (Text → Option Sym)) (extPath extName filename : Text)
    (f : ExtFunc) : Option Sym :=
  (dlopen (extPath ++ '/' :: filename)).bind (fun symbols => symbols (extName ++ f.suffix))

section Find

variable {symbols : Text → Option Sym} {extName : Text}

theorem find_loadSym (ext : Extension Sym) (f g : ExtFunc) :
    (ext.loadSym symbols extName f).find g extName =
      if g = f then (symbols (extName ++ f.suffix)).or (ext.find g extName)
      else ext.find g extName := by
  unfold loadSym
  by_cases hg : g = f
  · subst hg
    rw [if_pos rfl]
    cases hsym : symbols (extName ++ g.suffix) with
    | none => rfl
    | some sym => simp [find, SortedMap.lookup_insert_self]
  · rw [if_neg hg]
    cases hsym : symbols (extName ++ f.suffix) with
    | none => rfl
    | some sym => simp [find, Function.update_of_ne hg]

theorem find_loadSyms (fs : List ExtFunc) (ext : Extension Sym) (g : ExtFunc) :
    (fs.foldl (loadSym symbols extName) ext).find g extName =
      if g ∈ fs then (symbols (extName ++ g.suffix)).or (ext.find g extName)
      else ext.find g extName := by
  induction fs generalizing ext with
  | nil => rfl
  | cons f fs ih =>
      rw [List.foldl_cons, ih, find_loadSym]
      by_cases hg : g = f
      · subst hg
        -- looked for twice, it is found where it was found before
        by_cases hmem : g ∈ fs
        · simp [hmem, ← Option.or_assoc]
        · simp [hmem]
      · simp [hg]

theorem mem_loadOrder (f : ExtFunc) : f ∈ loadOrder := by
  cases f <;> decide

/-- **The functions that are there** when the first extension has been loaded. -/
theorem find_load (dlopen : Text → Option (Text → Option Sym)) {extPath : Text}
    (hpath : extPath ≠ []) (extName filename : Text) (f : ExtFunc) :
    ((new.setExtPath extPath).load dlopen extName filename).2.find f extName =
      symbolOf dlopen extPath extName filename f := by
  unfold load
  rw [setExtPath, if_neg hpath, symbolOf]
  cases hopen : dlopen (extPath ++ '/' :: filename) with
  | none => rfl
  | some symbols =>
      simp only [find_loadSyms, if_pos (mem_loadOrder f), Option.bind_some]
      exact Option.or_none

end Find

end Extension

section LoadExt

variable {Sym : Type} (dlopen : Text → Option (Text → Option Sym))

/-- `loadExt(ext_path, ext_name, ext_filename)`: the functions that it finds, and `sync_str`;
`none` when it exits.  A version that does not match is only reported. -/
def loadExt (extPath extName extFilename : Text) (c : Config) :
    Option ((ExtFunc → Sym) × Text × Config) := do
  let ext := ((Extension.new.setExtPath extPath).load dlopen extName extFilename).2
  let (syncStr, c) := c.getConfStr extName "sync_str".toList
  let extVersion ← ext.findExtVersion extName
  let parseReq ← ext.findParseReq extName
  let createReq ← ext.findCreateReq extName
  let createReqAsync ← ext.findCreateReqAsync extName
  let parseResp ← ext.findParseResp extName
  let createResp ← ext.findCreateResp extName
  let funcs : ExtFunc → Sym := fun
    | .parseReq => parseReq
    | .createReq => createReq
    | .createReqAsync => createReqAsync
    | .parseResp => parseResp
    | .createResp => createResp
    | .extVersion => extVersion
  some (funcs, syncStr, c)

variable {dlopen}

/-- **`loadExt` returns** when the file of the extension has all functions, with these. -/
theorem loadExt_eq_some_iff {extPath : Text} (hpath : extPath ≠ []) (extName extFilename : Text)
    (c : Config) (funcs : ExtFunc → Sym) (read : Text × Config) :
    loadExt dlopen extPath extName extFilename c = some (funcs, read) ↔
      (∀ f, Extension.symbolOf dlopen extPath extName extFilename f = some (funcs f)) ∧
        read = c.getConfStr extName "sync_str".toList := by
  have hfind := fun f => Extension.find_load dlopen hpath extName extFilename f
  simp only [loadExt, Extension.findExtVersion, Extension.findParseReq, Extension.findCreateReq,
    Extension.findCreateReqAsync, Extension.findParseResp, Extension.findCreateResp, hfind,
    Option.bind_eq_bind, Option.bind_eq_some_iff, Option.some.injEq, Prod.mk.injEq]
  constructor
  · rintro ⟨version, hversion, parseReq, hparseReq, createReq, hcreateReq, createReqAsync,
      hcreateReqAsync, parseResp, hparseResp, createResp, hcreateResp, rfl, rfl⟩
    refine ⟨fun f => ?_, rfl⟩
    cases f with
    | parseReq => exact hparseReq
    | createReq => exact hcreateReq
    | createReqAsync => exact hcreateReqAsync
    | parseResp => exact hparseResp
    | createResp => exact hcreateResp
    | extVersion => exact hversion
  · rintro ⟨hall, rfl⟩
    refine ⟨funcs .extVersion, hall .extVersion, funcs .parseReq, hall .parseReq,
      funcs .createReq, hall .createReq, funcs .createReqAsync, hall .createReqAsync,
      funcs .parseResp, hall .parseResp, funcs .createResp, hall .createResp, ?_, rfl⟩
    funext f
    cases f <;> rfl

end LoadExt

end KvProxy
