import KvProxy.ConfigFile
import KvProxy.ConfigReads
import KvProxy.ExtensionLoad
import KvProxy.ListedHosts

/-!
# From the configuration file to the rings

`main` loads the configuration, makes a `KvProxy` with the numbers of the section
`kvproxy`, loads the extension, and calls `setHosts` for the three groups, each of which
the section of the extension names.  Every read of a key that is missing leaves an empty
value behind, so the sections that are read as a whole must not be those that are asked for
single keys.

A written file whose groups list proper hosts starts the proxy with exactly these hosts,
and with the numbers written last for `kvproxy`, if the extension has its functions.  The
memory and the threads that the process asks for are taken to be there.

* `AskedFor` — what has been asked for before a group is read;
* `readMain_spec`, `hostGroup_written` — a value, or a group, is what the file lists;
* `started_as_written` — the rings and the settings behind the start.
-/

namespace KvProxy

open MachineInt

namespace Config

/-- `getConfInt(section, key)`; a value without digits leaves `val` as it was. -/
def getConfInt (c : Config) (unset : Int) (sec key : Text) : Int × Config :=
  if sec = [] ∨ key = [] then (0, c)
  else
    let (val, c) := c.indexKey sec key
    if val = [] then (0, c)
    else
      let (val, c) := c.indexKey sec key
      (str2int unset val, c)

/-- The number behind a value, if there is one. -/
def intOf (unset : Int) (val : Text) : Int := if val = [] then 0 else str2int unset val

theorem getConfInt_eq (c : Config) (unset : Int) (sec key : Text) :
    c.getConfInt unset sec key =
      if sec = [] ∨ key = [] then (0, c)
      else (intOf unset ((c.value sec key).getD []), (c.indexKey sec key).2) := by
  unfold getConfInt
  split_ifs with hempty
  · rfl
  · dsimp only
    rw [indexKey_again, ← indexKey_fst, intOf]
    split_ifs with hval
    · rfl
    · rfl

/-- It leaves behind what `getConfStr` does. -/
theorem getConfInt_snd (c : Config) (unset : Int) (sec key : Text) :
    (c.getConfInt unset sec key).2 = (c.getConfStr sec key).2 := by
  rw [getConfInt_eq, getConfStr_eq]
  split_ifs <;> rfl

end Config

/-- The section of the proxy. -/
def kvproxySec : Text := "kvproxy".toList

/-- What the constructor of `KvProxy` keeps of its section, of which the timeouts are no
part here, and the number of worker threads. -/
structure Settings where
  threadCount : Nat
  maxPacket : Int
  failoverThreshold : Int
  failoverInterval : Int
  asyncSize : Int
  deriving DecidableEq

/-- A number that is not positive is replaced by a default. -/
def positiveOr (default n : Int) : Int := if n ≤ 0 then default else n

/-- The constructor of `KvProxy`; `unset` is what `val` of `getConfInt` happens to hold at
the call for a key. -/
def readSettings (unset : Text → Int) (threadCount : Nat) (c : Config) : Settings × Config :=
  let get := fun (c : Config) (key : Text) => c.getConfInt (unset key) kvproxySec key
  let (_, c) := get c "connect_timeout".toList
  let (_, c) := get c "send_timeout".toList
  let (_, c) := get c "recv_timeout".toList
  let (maxPacket, c) := get c "max_packet".toList
  let (failoverThreshold, c) := get c "failover_threshold".toList
  let (failoverInterval, c) := get c "failover_interval".toList
  let (asyncSize, c) := get c "async_size".toList
  ({ threadCount := threadCount
     maxPacket := positiveOr 1 maxPacket
     failoverThreshold := positiveOr 10 failoverThreshold
     failoverInterval := positiveOr 10 failoverInterval
     asyncSize := positiveOr 50000 asyncSize }, c)

/-- `type` of `setHosts`. -/
def GroupType.name : GroupType → Text
  | .hosts => "hosts".toList
  | .hostsBackup => "hosts_backup".toList
  | .hostsRead => "hosts_read".toList

/-- The reads at the beginning of `setHosts(type, ext_name, …)`. -/
def hostGroup (type : GroupType) (extName : Text) (c : Config) : SortedMap Text Text × Config :=
  let (groupName, c) := c.getConfStr extName type.name
  if groupName = [] then (∅, c) else c.getConfStrSection groupName

/-- `setHosts(type, ext_name, …)`. -/
def setHostsOf (type : GroupType) (unset : Text → Unset) (t : HostTable) (c : Config) :
    Option (HostTable × Hosts × Config) := do
  let (group, c) := hostGroup type c.extName c
  let (t, hosts) ← t.setHostGroup type unset group
  some (t, hosts, c)

/-- What `main` has when the health thread starts. -/
structure Started (Sym : Type) where
  settings : Settings
  ext : ExtFunc → Sym
  syncStr : Text
  table : HostTable
  groups : HostTable.GroupHosts

/-- What `main` has read when it calls `loadExt`. -/
structure MainReads where
  settings : Settings
  extPath : Text
  extFilename : Text

/-- The reads of `main` up to `loadExt`, those of `initLog` among them.  `cpuNum` is
`get_nprocs()`, and `cwd` the directory of the program. -/
def readMain (unset : Text → Int) (cpuNum : Nat) (cwd : Text) (c : Config) : MainReads × Config :=
  let (_, c) := c.getConfStr kvproxySec "log_path".toList
  let (_, c) := c.getConfStr kvproxySec "log_level".toList
  let (cpuAffinity, c) := c.getConfBool kvproxySec "cpu_affinity".toList
  let (threads, c) := c.getConfInt (unset "thread_count".toList) kvproxySec "thread_count".toList
  let threadCount :=
    if cpuAffinity then cpuNum else if uint32 threads = 0 then 1 else uint32 threads
  let (settings, c) := readSettings unset threadCount c
  let (extPath, c) := c.getConfStr kvproxySec "ext_path".toList
  let extPath := if extPath = [] then cwd ++ "../ext".toList else extPath
  let (extFilename, c) := c.getConfStr c.extName "extension".toList
  (⟨settings, extPath, extFilename⟩, c)

/-- The lists of the three groups. -/
def HostTable.groupsOf (hosts hostsBackup hostsRead : Hosts) : HostTable.GroupHosts
  | .hosts => hosts
  | .hostsBackup => hostsBackup
  | .hostsRead => hostsRead

/-- The calls of `setHosts` in `main`, and `initVar`. -/
def startHosts (unsetHost : GroupType → Text → Unset) (c : Config) :
    Option (HostTable × HostTable.GroupHosts) := do
  let (t, hosts, c) ← setHostsOf .hosts (unsetHost .hosts) .new c
  let (t, hostsBackup, c) ← setHostsOf .hostsBackup (unsetHost .hostsBackup) t c
  let (t, hostsRead, _) ← setHostsOf .hostsRead (unsetHost .hostsRead) t c
  some (t.initVar, HostTable.groupsOf hosts hostsBackup hostsRead)

section Start

variable {Sym : Type} (dlopen : Text → Option (Text → Option Sym))

/-- `main` from `initLog` to `initVar`; `none` when it exits. -/
def startProxy (unset : Text → Int) (unsetHost : GroupType → Text → Unset) (cpuNum : Nat)
    (cwd : Text) (c : Config) : Option (Started Sym) := do
  let (read, c) := readMain unset cpuNum cwd c
  let (ext, syncStr, c) ← loadExt dlopen read.extPath c.extName read.extFilename c
  let (table, groups) ← startHosts unsetHost c
  some ⟨read.settings, ext, syncStr, table, groups⟩

end Start

/-! ## What a file lists -/

/-- The section that a file names for a group. -/
def groupSection (entries : List (Text × Text × Text)) (g : GroupType) : Text :=
  if lastExtension entries = [] then []
  else (lastValue (lastExtension entries) g.name entries).getD []

/-- A file lists hosts for a group: its section has their lines and no other entries, and
without a section there are none. -/
structure Lists (entries : List (Text × Text × Text)) (g : GroupType)
    (es : List HostEntry) : Prop where
  proper : ∀ e ∈ es, e.Proper
  sorted : es.Pairwise (fun e f => e.key < f.key)
  unnamed : groupSection entries g = [] → es = []
  written : groupSection entries g ≠ [] → ∀ key value,
    lastValue (groupSection entries g) key entries = some value ↔
      ∃ e ∈ es, e.key = key ∧ e.value = value

/-- A number of the section `kvproxy`, as it is written. -/
def writtenInt (entries : List (Text × Text × Text)) (unset : Text → Int) (key : Text) : Int :=
  Config.intOf (unset key) ((lastValue kvproxySec key entries).getD [])

/-- The settings that a file asks for. -/
def writtenSettings (entries : List (Text × Text × Text)) (unset : Text → Int)
    (cpuNum : Nat) : Settings where
  threadCount :=
    if Config.isOn ((lastValue kvproxySec "cpu_affinity".toList entries).getD []) then cpuNum
    else if uint32 (writtenInt entries unset "thread_count".toList) = 0 then 1
    else uint32 (writtenInt entries unset "thread_count".toList)
  maxPacket := positiveOr 1 (writtenInt entries unset "max_packet".toList)
  failoverThreshold := positiveOr 10 (writtenInt entries unset "failover_threshold".toList)
  failoverInterval := positiveOr 10 (writtenInt entries unset "failover_interval".toList)
  asyncSize := positiveOr 50000 (writtenInt entries unset "async_size".toList)

/-- A text of the section of the extension, as it is written. -/
def writtenStr (entries : List (Text × Text × Text)) (sec key : Text) : Text :=
  (lastValue sec key entries).getD []

/-- Where a file says that its extension is: a path, and the name of a file. -/
def writtenExtPath (entries : List (Text × Text × Text)) (cwd : Text) : Text :=
  if writtenStr entries kvproxySec "ext_path".toList = [] then cwd ++ "../ext".toList
  else writtenStr entries kvproxySec "ext_path".toList

/-- The functions of the extension that a file asks for. -/
def writtenExt {Sym : Type} (dlopen : Text → Option (Text → Option Sym))
    (entries : List (Text × Text × Text)) (cwd : Text) (f : ExtFunc) : Option Sym :=
  Extension.symbolOf dlopen (writtenExtPath entries cwd) (lastExtension entries)
    (writtenStr entries (lastExtension entries) "extension".toList) f

/-! ## What has been asked for -/

/-- The configuration behind calls for single keys, all in the sections `secs`, and for
whole sections. -/
structure AskedFor (loaded : Config) (secs : Text → Prop) (c : Config) : Prop where
  ext : c.extName = loaded.extName
  touched : ∃ calls, Touched loaded calls c ∧ ∀ call ∈ calls, ∀ e, call.keyOf = some e → secs e.1

namespace AskedFor

variable {loaded c : Config} {secs : Text → Prop}

theorem call (h : AskedFor loaded secs c) (call : ConfCall)
    (hcall : ∀ e, call.keyOf = some e → secs e.1)
    (hext : (call.run c).2.extName = c.extName) : AskedFor loaded secs (call.run c).2 := by
  obtain ⟨calls, htouched, hcalls⟩ := h.touched
  refine ⟨hext.trans h.ext, calls ++ [call], htouched.step call, fun x hx => ?_⟩
  rcases List.mem_append.mp hx with hx | hx
  · exact hcalls x hx
  · rw [List.mem_singleton.mp hx]
    exact hcall

theorem value (h : AskedFor loaded secs c) (sec key : Text) :
    (c.value sec key).getD [] = (loaded.value sec key).getD [] := by
  obtain ⟨calls, htouched, _⟩ := h.touched
  exact htouched.getD_value sec key

theorem str (h : AskedFor loaded secs c) {sec : Text} (hsec : secs sec) (key : Text) :
    AskedFor loaded secs (c.getConfStr sec key).2 := by
  refine h.call (.str sec key) (fun e he => ?_) ?_
  · simp only [ConfCall.keyOf] at he
    split_ifs at he
    obtain rfl := Option.some.inj he
    exact hsec
  · rw [ConfCall.run, Config.getConfStr_eq]
    split_ifs
    · rfl
    · rfl

theorem str_fst (h : AskedFor loaded secs c) {sec key : Text} (hsec : sec ≠ []) (hkey : key ≠ []) :
    (c.getConfStr sec key).1 = (loaded.value sec key).getD [] := by
  rw [Config.getConfStr_eq, if_neg (by simp [hsec, hkey]), h.value]

theorem bool (h : AskedFor loaded secs c) {sec : Text} (hsec : secs sec) (key : Text) :
    AskedFor loaded secs (c.getConfBool sec key).2 := by
  have hsame : (c.getConfBool sec key).2 = (c.getConfStr sec key).2 := by
    rw [Config.getConfBool_eq, Config.getConfStr_eq]
    split_ifs
    · rfl
    · rfl
  rw [hsame]
  exact h.str hsec key

theorem bool_fst (h : AskedFor loaded secs c) {sec key : Text} (hsec : sec ≠ []) (hkey : key ≠ []) :
    (c.getConfBool sec key).1 = Config.isOn ((loaded.value sec key).getD []) := by
  rw [Config.getConfBool_eq, if_neg (by simp [hsec, hkey]), h.value]

theorem int (h : AskedFor loaded secs c) (unset : Int) {sec : Text} (hsec : secs sec) (key : Text) :
    AskedFor loaded secs (c.getConfInt unset sec key).2 := by
  rw [Config.getConfInt_snd]
  exact h.str hsec key

theorem int_fst (h : AskedFor loaded secs c) (unset : Int) {sec key : Text} (hsec : sec ≠ [])
    (hkey : key ≠ []) :
    (c.getConfInt unset sec key).1 = Config.intOf unset ((loaded.value sec key).getD []) := by
  rw [Config.getConfInt_eq, if_neg (by simp [hsec, hkey]), h.value]

/-- A whole section, with none of its keys asked for, is as it was loaded. -/
theorem section_fst (h : AskedFor loaded secs c) {sec : Text} (hsec : sec ≠ [])
    (hnot : ¬ secs sec) : (c.getConfStrSection sec).1 = loaded.conf.getD sec ∅ := by
  obtain ⟨calls, htouched, hcalls⟩ := h.touched
  have hmiss : NoMiss loaded calls sec :=
    fun call hcall key hkey => absurd (hcalls call hcall _ hkey) hnot
  rw [Config.getConfStrSection_eq, if_neg hsec, htouched.section_eq hmiss]

theorem wholeSection (h : AskedFor loaded secs c) (sec : Text) :
    AskedFor loaded secs (c.getConfStrSection sec).2 := by
  refine h.call (.strSection sec) (fun e he => by cases he) ?_
  rw [ConfCall.run, Config.getConfStrSection_eq]
  split_ifs
  · rfl
  · rfl

end AskedFor

/-! ## The reads of `main` -/

/-- The sections that `main` asks for single keys. -/
def MainSec (loaded : Config) (sec : Text) : Prop := sec = kvproxySec ∨ sec = loaded.extName

section Main

variable {entries : List (Text × Text × Text)} {loaded c : Config}

/-- What a file with these entries is loaded as. -/
structure LoadedFrom (entries : List (Text × Text × Text)) (loaded : Config) : Prop where
  value : ∀ sec key, loaded.value sec key = lastValue sec key entries
  ext : loaded.extName = lastExtension entries

theorem loadedFrom (entries : List (Text × Text × Text)) :
    LoadedFrom entries (entries.foldl Config.addEntry .new) :=
  ⟨stored_value entries, stored_extension entries⟩

theorem AskedFor.refl (loaded : Config) (secs : Text → Prop) : AskedFor loaded secs loaded := by
  refine ⟨rfl, [], fun sec key => by simp, fun call hcall => absurd hcall List.not_mem_nil⟩

/-- **The constructor** reads what is written for `kvproxy`. -/
theorem readSettings_spec (hfrom : LoadedFrom entries loaded)
    (h : AskedFor loaded (MainSec loaded) c) (unset : Text → Int) (threadCount : Nat) :
    (readSettings unset threadCount c).1 =
        { threadCount := threadCount
          maxPacket := positiveOr 1 (writtenInt entries unset "max_packet".toList)
          failoverThreshold :=
            positiveOr 10 (writtenInt entries unset "failover_threshold".toList)
          failoverInterval := positiveOr 10 (writtenInt entries unset "failover_interval".toList)
          asyncSize := positiveOr 50000 (writtenInt entries unset "async_size".toList) } ∧
      AskedFor loaded (MainSec loaded) (readSettings unset threadCount c).2 := by
  have hsec : MainSec loaded kvproxySec := Or.inl rfl
  have hne : kvproxySec ≠ [] := by decide
  have hvalue : ∀ {c : Config}, AskedFor loaded (MainSec loaded) c → ∀ key : Text, key ≠ [] →
      (c.getConfInt (unset key) kvproxySec key).1 = writtenInt entries unset key := by
    intro c hc key hkey
    rw [hc.int_fst (unset key) hne hkey, hfrom.value]
    rfl
  have h₁ := h.int (unset "connect_timeout".toList) hsec "connect_timeout".toList
  have h₂ := h₁.int (unset "send_timeout".toList) hsec "send_timeout".toList
  have h₃ := h₂.int (unset "recv_timeout".toList) hsec "recv_timeout".toList
  have h₄ := h₃.int (unset "max_packet".toList) hsec "max_packet".toList
  have h₅ := h₄.int (unset "failover_threshold".toList) hsec "failover_threshold".toList
  have h₆ := h₅.int (unset "failover_interval".toList) hsec "failover_interval".toList
  have h₇ := h₆.int (unset "async_size".toList) hsec "async_size".toList
  dsimp only [readSettings]
  refine ⟨?_, h₇⟩
  rw [hvalue h₃ _ (by decide), hvalue h₄ _ (by decide), hvalue h₅ _ (by decide),
    hvalue h₆ _ (by decide)]

/-- **`main`, before the extension**, reads the settings and where the extension is. -/
theorem readMain_spec (hfrom : LoadedFrom entries loaded) (unset : Text → Int) (cpuNum : Nat)
    (cwd : Text) (hext : lastExtension entries ≠ []) :
    (readMain unset cpuNum cwd loaded).1 =
        ⟨writtenSettings entries unset cpuNum, writtenExtPath entries cwd,
          writtenStr entries (lastExtension entries) "extension".toList⟩ ∧
      AskedFor loaded (MainSec loaded) (readMain unset cpuNum cwd loaded).2 := by
  have hsec : MainSec loaded kvproxySec := Or.inl rfl
  have hne : kvproxySec ≠ [] := by decide
  have h₁ := (AskedFor.refl loaded (MainSec loaded)).str hsec "log_path".toList
  have h₂ := h₁.str hsec "log_level".toList
  have h₃ := h₂.bool hsec "cpu_affinity".toList
  have h₄ := h₃.int (unset "thread_count".toList) hsec "thread_count".toList
  have haffinity := h₂.bool_fst hne (show "cpu_affinity".toList ≠ [] by decide)
  have hthreads := h₃.int_fst (unset "thread_count".toList) hne
    (show "thread_count".toList ≠ [] by decide)
  rw [hfrom.value] at haffinity hthreads
  -- the settings are read with the number of threads found so far, whatever it is
  have hsettings := readSettings_spec hfrom h₄ unset
  have hpath := fun n => (hsettings n).2.str_fst hne (show "ext_path".toList ≠ [] by decide)
  have h₆ := fun n => (hsettings n).2.str hsec "ext_path".toList
  have hname := fun n => (h₆ n).ext.trans hfrom.ext
  have hfile := fun n => (h₆ n).str_fst (ne_of_eq_of_ne (hname n) hext)
    (show "extension".toList ≠ [] by decide)
  have h₇ := fun n => (h₆ n).str (Or.inr (h₆ n).ext) "extension".toList
  dsimp only [readMain]
  refine ⟨?_, h₇ _⟩
  rw [hpath, hfile, hname, hfrom.value, hfrom.value, (hsettings _).1, haffinity, hthreads]
  rfl

/-- **`loadExt`** returns with the functions that are in the file, if they are all there, and
reads `sync_str`. -/
theorem loadExt_written {Sym : Type} (hfrom : LoadedFrom entries loaded)
    (h : AskedFor loaded (MainSec loaded) c) (hext : lastExtension entries ≠ [])
    (dlopen : Text → Option (Text → Option Sym)) (cwd : Text) :
    ∃ c', AskedFor loaded (MainSec loaded) c' ∧ ∀ r,
      loadExt dlopen (writtenExtPath entries cwd) c.extName
          (writtenStr entries (lastExtension entries) "extension".toList) c = some r ↔
        (∀ f, writtenExt dlopen entries cwd f = some (r.1 f)) ∧
          r.2 = (writtenStr entries (lastExtension entries) "sync_str".toList, c') := by
  have hname : c.extName = lastExtension entries := h.ext.trans hfrom.ext
  have hpath : writtenExtPath entries cwd ≠ [] := by
    unfold writtenExtPath
    split_ifs with hnone
    · simp
    · exact hnone
  have hread : c.getConfStr (lastExtension entries) "sync_str".toList =
      (writtenStr entries (lastExtension entries) "sync_str".toList,
        (c.getConfStr (lastExtension entries) "sync_str".toList).2) := by
    refine Prod.ext ?_ rfl
    rw [h.str_fst hext (by decide), hfrom.value]
    rfl
  refine ⟨_, h.str (Or.inr hfrom.ext.symm) "sync_str".toList, fun r => ?_⟩
  rw [← hread, hname]
  exact loadExt_eq_some_iff hpath _ _ c r.1 r.2

/-! ## The groups -/

theorem name_ne_nil (g : GroupType) : g.name ≠ [] := by
  cases g <;> decide

theorem colon_notMem_name (g : GroupType) : ':' ∉ g.name := by
  cases g <;> decide

/-- The section of a group is none of those that are asked for single keys. -/
theorem Lists.not_mainSec (hfrom : LoadedFrom entries loaded) {g : GroupType}
    {es : List HostEntry} (h : Lists entries g es) (hsec : groupSection entries g ≠ [])
    (hproxy : groupSection entries g ≠ kvproxySec) : ¬ MainSec loaded (groupSection entries g) := by
  rintro (hsame | hsame)
  · exact hproxy hsame
  · -- the section of the extension has the name of the group for a key, which lists no host
    rw [hfrom.ext] at hsame
    have hnamed : groupSection entries g =
        (lastValue (lastExtension entries) g.name entries).getD [] := by
      unfold groupSection at hsec ⊢
      split_ifs at hsec ⊢
      · exact absurd rfl hsec
      · rfl
    cases hvalue : lastValue (lastExtension entries) g.name entries with
    | none =>
        rw [hnamed, hvalue] at hsec
        exact hsec rfl
    | some value =>
        rw [← hsame] at hvalue
        obtain ⟨e, _, hkey, _⟩ := (h.written hsec g.name value).mp hvalue
        apply colon_notMem_name g
        rw [← hkey]
        simp [HostEntry.key, HostTable.hostPort]

/-- The entries of a section that lists hosts. -/
theorem Lists.entries_eq (hfrom : LoadedFrom entries loaded) {g : GroupType} {es : List HostEntry}
    (h : Lists entries g es) (hsec : groupSection entries g ≠ []) :
    (loaded.conf.getD (groupSection entries g) ∅).entries =
      es.map (fun e => (e.key, e.value)) := by
  have hsorted : (es.map (fun e => (e.key, e.value))).Pairwise (fun x y => x.1 < y.1) :=
    List.pairwise_map.mpr h.sorted
  have hmap : loaded.conf.getD (groupSection entries g) ∅ = ⟨_, hsorted⟩ := by
    apply SortedMap.ext_mem
    intro x
    rw [← SortedMap.lookup_eq_some_iff (k := x.1), Config.lookup_getD, hfrom.value,
      h.written hsec, SortedMap.mem_def, List.mem_map]
    exact exists_congr fun e => and_congr_right fun _ => by rw [Prod.ext_iff]
  rw [hmap]

/-- **A group** is read as the file lists it. -/
theorem hostGroup_written (hfrom : LoadedFrom entries loaded)
    (h : AskedFor loaded (MainSec loaded) c) {g : GroupType} {es : List HostEntry}
    (hlists : Lists entries g es) (hproxy : groupSection entries g ≠ kvproxySec) :
    (hostGroup g c.extName c).1.entries = es.map (fun e => (e.key, e.value)) ∧
      AskedFor loaded (MainSec loaded) (hostGroup g c.extName c).2 := by
  have hname : (c.getConfStr c.extName g.name).1 = groupSection entries g := by
    rw [h.ext, hfrom.ext, groupSection]
    split_ifs with hext
    · rw [hext, Config.getConfStr_eq, if_pos (Or.inl rfl)]
    · rw [h.str_fst hext (name_ne_nil g), hfrom.value]
  have hasked := h.str (Or.inr h.ext) g.name
  dsimp only [hostGroup]
  rw [hname]
  by_cases hsec : groupSection entries g = []
  · rw [if_pos hsec, hlists.unnamed hsec]
    exact ⟨rfl, hasked⟩
  · rw [if_neg hsec, hasked.section_fst hsec (hlists.not_mainSec hfrom hsec hproxy)]
    exact ⟨hlists.entries_eq hfrom hsec, hasked.wholeSection _⟩

/-- **`setHosts`** works on the listed hosts. -/
theorem setHostsOf_written (hfrom : LoadedFrom entries loaded)
    (h : AskedFor loaded (MainSec loaded) c) {g : GroupType} {es : List HostEntry}
    (hlists : Lists entries g es) (hproxy : groupSection entries g ≠ kvproxySec)
    (unset : Text → Unset) (t : HostTable) :
    ∃ c', AskedFor loaded (MainSec loaded) c' ∧
      setHostsOf g unset t c = (t.setHosts g es).map (fun r => (r.1, r.2, c')) := by
  obtain ⟨hentries, hasked⟩ := hostGroup_written hfrom h hlists hproxy
  refine ⟨_, hasked, ?_⟩
  have hgroup : t.setHostGroup g unset (hostGroup g c.extName c).1 = t.setHosts g es := by
    rw [HostTable.setHostGroup, hostEntries_listed unset hlists.proper hentries, Option.bind_some]
  dsimp only [setHostsOf]
  rw [hgroup]
  cases t.setHosts g es with
  | none => rfl
  | some r => rfl

/-- **The groups** make the tables of the listed hosts. -/
theorem startHosts_written (hfrom : LoadedFrom entries loaded)
    (h : AskedFor loaded (MainSec loaded) c) {cfg : HostTable.Config}
    (hlists : ∀ g, Lists entries g (cfg.group g))
    (hproxy : ∀ g, groupSection entries g ≠ kvproxySec)
    (unsetHost : GroupType → Text → Unset) : startHosts unsetHost c = HostTable.start cfg := by
  dsimp only [startHosts, HostTable.start]
  obtain ⟨c₁, h₁, hset₁⟩ := setHostsOf_written hfrom h (hlists .hosts) (hproxy .hosts)
    (unsetHost .hosts) .new
  rw [hset₁]
  cases hone : HostTable.new.setHosts .hosts cfg.hosts with
  | none => simp [HostTable.Config.group, hone]
  | some r₁ =>
      obtain ⟨c₂, h₂, hset₂⟩ := setHostsOf_written hfrom h₁ (hlists .hostsBackup)
        (hproxy .hostsBackup) (unsetHost .hostsBackup) r₁.1
      cases htwo : r₁.1.setHosts .hostsBackup cfg.hostsBackup with
      | none => simp [HostTable.Config.group, hone, hset₂, htwo]
      | some r₂ =>
          obtain ⟨c₃, _, hset₃⟩ := setHostsOf_written hfrom h₂ (hlists .hostsRead)
            (hproxy .hostsRead) (unsetHost .hostsRead) r₂.1
          cases hthree : r₂.1.setHosts .hostsRead cfg.hostsRead with
          | none => simp [HostTable.Config.group, hone, hset₂, htwo, hset₃, hthree]
          | some r₃ =>
              rw [HostTable.Config.group, htwo, Option.map_some] at hset₂
              rw [HostTable.Config.group, hthree, Option.map_some] at hset₃
              simp only [HostTable.Config.group, hone, hset₂, htwo, hset₃, hthree,
                Option.bind_eq_bind, Option.bind_some, Option.bind_map, Function.comp_apply]
              rfl

end Main

/-- The start succeeds when the default group lists a host. -/
theorem HostTable.start_isSome {cfg : HostTable.Config} (hdefault : cfg.hosts ≠ [])
    (hkeys : ∀ g, ((cfg.group g).map HostEntry.key).Nodup) :
    ∃ r, HostTable.start cfg = some r := by
  have hsome : ∀ (t : HostTable) (g : GroupType) (es : List HostEntry),
      (g = .hosts → es ≠ [] ∧ Numbers t ∧ (es.map HostEntry.key).Nodup) →
        ∃ r, t.setHosts g es = some r := by
    intro t g es hg
    simp only [HostTable.setHosts]
    by_cases hempty : (es.foldl (HostTable.addEntry g) (t, ∅)).2.entries.isEmpty
    · rw [if_pos hempty]
      by_cases hhosts : g = .hosts
      · -- the first host that is listed is in the map
        obtain ⟨hne, hnumbers, hnodup⟩ := hg hhosts
        obtain ⟨e, he⟩ := List.exists_mem_of_ne_nil _ hne
        obtain ⟨a, _, hmem⟩ := (hnumbers.addEntries g hnodup).2.2.there e he
        rw [SortedMap.mem_def, List.isEmpty_iff.mp hempty] at hmem
        exact absurd hmem List.not_mem_nil
      · rw [if_neg hhosts]
        exact ⟨_, rfl⟩
    · rw [if_neg hempty]
      exact ⟨_, rfl⟩
  obtain ⟨r₁, hr₁⟩ := hsome .new .hosts cfg.hosts
    (fun _ => ⟨hdefault, numbers_new, hkeys .hosts⟩)
  obtain ⟨r₂, hr₂⟩ := hsome r₁.1 .hostsBackup cfg.hostsBackup (fun h => by cases h)
  obtain ⟨r₃, hr₃⟩ := hsome r₂.1 .hostsRead cfg.hostsRead (fun h => by cases h)
  simp only [HostTable.start, hr₁, hr₂, hr₃, Option.bind_eq_bind, Option.bind_some]
  exact ⟨_, rfl⟩

theorem Lists.keys_nodup {entries : List (Text × Text × Text)} {g : GroupType}
    {es : List HostEntry} (h : Lists entries g es) : (es.map HostEntry.key).Nodup :=
  (List.pairwise_map.mpr h.sorted).imp (fun hlt => ne_of_lt hlt)

/-- A section in which no key is written twice has the values of its lines. -/
theorem lastValue_iff_of_section {α : Type} {entries : List (Text × Text × Text)} {sec : Text}
    {es : List α} (k v : α → Text)
    (hsec : entries.filter (fun x => x.1 = sec) = es.map (fun e => (sec, k e, v e)))
    (hkeys : (es.map k).Nodup) (key value : Text) :
    lastValue sec key entries = some value ↔ ∃ e ∈ es, k e = key ∧ v e = value := by
  have hlines : entries.filter (fun x => x.1 = sec ∧ x.2.1 = key) =
      (es.filter (fun e => k e = key)).map (fun e => (sec, k e, v e)) := by
    have hboth : entries.filter (fun x => x.1 = sec ∧ x.2.1 = key) =
        (entries.filter (fun x => x.1 = sec)).filter (fun x => x.2.1 = key) := by
      rw [List.filter_filter]
      refine List.filter_congr fun x _ => ?_
      rw [Bool.decide_and, Bool.and_comm]
    rw [hboth, hsec, List.filter_map]
    rfl
  rw [lastValue, hlines, List.getLast?_map]
  constructor
  · intro h
    simp only [Option.map_map, Option.map_eq_some_iff, Function.comp_apply] at h
    obtain ⟨e, he, hvalue⟩ := h
    obtain ⟨hmem, hkey⟩ := List.mem_filter.mp (List.mem_of_getLast? he)
    exact ⟨e, hmem, of_decide_eq_true hkey, hvalue⟩
  · rintro ⟨e, he, rfl, rfl⟩
    -- no other line has this key
    have hone : ∀ f ∈ es.filter (fun f => k f = k e), f = e := by
      intro f hf
      obtain ⟨hmem, hkey⟩ := List.mem_filter.mp hf
      exact List.inj_on_of_nodup_map hkeys hmem he (of_decide_eq_true hkey)
    have hmem : e ∈ es.filter (fun f => k f = k e) :=
      List.mem_filter.mpr ⟨he, decide_eq_true rfl⟩
    have hlast := List.getLast?_eq_some_getLast (List.ne_nil_of_mem hmem)
    rw [hlast, hone _ (List.mem_of_getLast? hlast)]
    rfl

/-- A file that lists a host for the default group names an extension. -/
theorem Lists.lastExtension_ne_nil {entries : List (Text × Text × Text)} {es : List HostEntry}
    (h : Lists entries .hosts es) (hdefault : es ≠ []) : lastExtension entries ≠ [] := by
  intro hnone
  exact hdefault (h.unnamed (if_pos hnone))

/-- **The whole start** comes to an end when the extension and the listed hosts are there, with
what is written. -/
theorem startProxy_eq_some_iff {entries : List (Text × Text × Text)} {loaded : Config}
    (hfrom : LoadedFrom entries loaded) {cfg : HostTable.Config}
    (hlists : ∀ g, Lists entries g (cfg.group g))
    (hproxy : ∀ g, groupSection entries g ≠ kvproxySec)
    (hdefault : cfg.hosts ≠ []) {Sym : Type} (dlopen : Text → Option (Text → Option Sym))
    (unset : Text → Int) (unsetHost : GroupType → Text → Unset) (cpuNum : Nat) (cwd : Text)
    (s : Started Sym) :
    startProxy dlopen unset unsetHost cpuNum cwd loaded = some s ↔
      (∀ f, writtenExt dlopen entries cwd f = some (s.ext f)) ∧
        s.settings = writtenSettings entries unset cpuNum ∧
        s.syncStr = writtenStr entries (lastExtension entries) "sync_str".toList ∧
        HostTable.start cfg = some (s.table, s.groups) := by
  have hext := (hlists .hosts).lastExtension_ne_nil hdefault
  obtain ⟨hread, h₁⟩ := readMain_spec hfrom unset cpuNum cwd hext
  unfold startProxy
  generalize readMain unset cpuNum cwd loaded = got at hread h₁ ⊢
  obtain ⟨read, c₁⟩ := got
  obtain rfl : read = _ := hread
  obtain ⟨c, h₂, hload⟩ := loadExt_written hfrom h₁ hext dlopen cwd
  have hhosts := startHosts_written hfrom h₂ hlists hproxy unsetHost
  simp only [Option.bind_eq_bind, Option.bind_eq_some_iff, Option.some.injEq]
  constructor
  · rintro ⟨⟨funcs, syncStr, c₂⟩, hr, ⟨t, groups⟩, hg, rfl⟩
    obtain ⟨hfuncs, hsync⟩ := (hload _).mp hr
    obtain ⟨rfl, rfl⟩ := Prod.mk.inj hsync
    exact ⟨hfuncs, rfl, rfl, hhosts.symm.trans hg⟩
  · rintro ⟨hfuncs, hsettings, hsync, hg⟩
    refine ⟨(s.ext, s.syncStr, c), (hload _).mpr ⟨hfuncs, by rw [hsync]⟩, (s.table, s.groups),
      hhosts.trans hg, ?_⟩
    rw [← hsettings]

/-- The file `kvproxy.ini`. -/
def shippedFile : List FileLine :=
  [.sectionName "kvproxy".toList,
    .bareEntry "port".toList [] [] "55669".toList [],
    .bareEntry "thread_count".toList [] [] "2".toList [],
    .bareEntry "cpu_affinity".toList [] [] "on".toList [],
    .bareEntry "backlog".toList [] [] "10000".toList [],
    .comment [] "unit millisecond".toList,
    .bareEntry "recv_timeout".toList [] [] "100".toList [],
    .comment [] "log_path=/tmp/kvproxy.log".toList,
    .bareEntry "log_level".toList [] [] "warn".toList [],
    .comment [] "ext_path=../ext".toList,
    .comment [] "unit MB".toList,
    .bareEntry "max_packet".toList [] [] "1".toList [],
    .bareEntry "failover_threshold".toList [' '] [' '] "2".toList [],
    .comment [] "unit second ".toList,
    .bareEntry "failover_interval".toList [' '] [' '] "2".toList [],
    .bareEntry "async_size".toList [' '] [' '] "50000".toList [],
    .blank [],
    .sectionName "memcached".toList,
    .bareEntry "extension".toList [] [] "memcached.so".toList [],
    .bareEntry "hosts".toList [] [] "master".toList [],
    .comment [] "hosts_backup=read".toList,
    .bareEntry "hosts_read".toList [] [] "master".toList [],
    .entry "sync_str".toList [' '] [' '] "+".toList,
    .comment [] "binary or text".toList,
    .bareEntry "proto".toList [] [] "binary".toList [],
    .blank [],
    .sectionName "master".toList,
    .entry "127.0.0.1:11211".toList [] [] "1:50".toList,
    .blank [],
    .sectionName "read".toList,
    .entry "127.0.0.1:11212".toList [] [] "2:50".toList]

/-- The host that it lists, which is also the one for reads. -/
def shippedConfig : HostTable.Config where
  hosts := [⟨"127.0.0.1".toList, 11211, 1, 50⟩]
  hostsBackup := []
  hostsRead := [⟨"127.0.0.1".toList, 11211, 1, 50⟩]

/-- The extension is in the directory beside that of the program; a function is its name. -/
def shippedExt (path : Text) : Option (Text → Option Text) :=
  if path = "/kvproxy/sbin/../ext/memcached.so".toList then
    some (fun name => if name ∈ Extension.loadOrder.map (fun f => "memcached".toList ++ f.suffix)
      then some name else none)
  else none

theorem shippedFile_lists (g : GroupType) :
    Lists (written [] shippedFile) g (shippedConfig.group g) := by
  cases g with
  | hosts =>
      refine ⟨by decide +kernel, by decide +kernel, fun h => ?_, fun _ => ?_⟩
      · revert h
        decide +kernel
      · exact lastValue_iff_of_section _ _ (by decide +kernel) (by decide +kernel)
  | hostsBackup =>
      exact ⟨by decide, by decide, fun _ => rfl, fun h => absurd (by decide +kernel) h⟩
  | hostsRead =>
      refine ⟨by decide +kernel, by decide +kernel, fun h => ?_, fun _ => ?_⟩
      · revert h
        decide +kernel
      · exact lastValue_iff_of_section _ _ (by decide +kernel) (by decide +kernel)

theorem shippedConfig_apart (g : GroupType) : HostTable.EntriesApart (shippedConfig.group g) := by
  intro e he f hf i _ j _ _
  cases g with
  | hosts => rw [List.mem_singleton.mp he, List.mem_singleton.mp hf]
  | hostsBackup => cases he
  | hostsRead => rw [List.mem_singleton.mp he, List.mem_singleton.mp hf]

end KvProxy
