import Xv6.Fs.Seq
import Xv6.Lib.CString
import Xv6.Lib.System

/-!
# Path resolution (`fs.c`, `string.c`)

`skipelem`, `namecmp` and `namex` with their pointers and buffers. `Fs.Code` has the elements of a path and the
names of entries as lists: here they are what the code finds in memory.
-/

open Lib

namespace Xv6.Path

variable {nproc : Nat}

/-! ## Names in memory -/

/-- `char name[DIRSIZ]` -/
abbrev Buf := Fin DIRSIZ → Char

/-- What is in the array up to a NUL. There is none behind a name of `DIRSIZ` characters. -/
def cname (name : Buf) : Name := (List.ofFn name).takeWhile (· ≠ '\x00')

/-- `memmove(name, s, len)` -/
def memmove (name : Buf) (x : CString) (s len : Nat) : Buf :=
  fun k => if k.val < len then x.deref (s + k.val) else name k

/-- `name[len] = 0` -/
def terminate (name : Buf) (len : Nat) : Buf := fun k => if k.val = len then '\x00' else name k

/-- `strncmp` from index `k` on, with `n` characters to compare. -/
def strncmp (s t : Nat → Char) : Nat → Nat → Int
  | 0, _ => 0
  | n + 1, k => if s k ≠ '\x00' ∧ s k = t k then strncmp s t n (k + 1) else (s k).toNat - (t k).toNat

def namecmp (s t : Buf) : Int :=
  strncmp (fun k => (List.ofFn s).getD k '\x00') (fun k => (List.ofFn t).getD k '\x00') DIRSIZ 0

/-- `struct dirent` -/
structure RawDirent where
  inum : Nat
  name : Buf

def RawDirent.entry (de : RawDirent) : Dirent := ⟨de.inum, cname de.name⟩

/-! ## The code -/

def skipelem (x : CString) (path : Nat) (name : Buf) : Option (Nat × Buf) :=
  let path := x.skipWhile (· = '/') path
  if x.deref path = '\x00' then none
  else
    let s := path
    let path := x.skipWhile (fun c => c ≠ '/' && c ≠ '\x00') path
    let len := path - s
    let name := if len ≥ DIRSIZ then memmove name x s DIRSIZ else terminate (memmove name x s len) len
    some (x.skipWhile (· = '/') path, name)

/-- The loop of `dirlookup` over the entries of a directory. -/
def dirloop (name : Buf) : List RawDirent → Option Nat
  | [] => none
  | de :: rest => if de.inum = 0 then dirloop name rest else if namecmp name de.name = 0 then some de.inum
      else dirloop name rest

variable (tree : Nat → List RawDirent)

/-- `tree dp` is what `readi` finds in `dp`. -/
def dirlookup (dp : Nat) (name : Buf) : P (Option Nat) := do
  let type ← op (.type dp)
  if type ≠ .dir then panic "dirlookup not DIR"
  else
    match dirloop name (tree dp) with
    | none => pure none
    | some inum => do op (.iget inum); pure (some inum)

/-- The loop of `namex`. It returns the inode, or `none` for 0, and what is in `name`. The fuel does not run out. -/
def namexLoop (x : CString) (nameiparent : Bool) : Nat → Nat → Nat → Buf → P (Option Nat × Buf)
  | 0, _, _, _ => panic "fuel"
  | n + 1, ip, path, name =>
    match skipelem x path name with
    | none => if nameiparent then do iput ip; pure (none, name) else pure (some ip, name)
    | some (path, name) => do
      ilock ip
      let type ← op (.type ip)
      if type ≠ .dir then do iunlockput ip; pure (none, name)
      else if nameiparent ∧ x.deref path = '\x00' then do
        -- Stop one level early.
        iunlock ip
        pure (some ip, name)
      else do
        let next ← dirlookup tree ip name
        match next with
        | none => do iunlockput ip; pure (none, name)
        | some next => do iunlockput ip; namexLoop x nameiparent n next path name

def startInode (x : CString) : P Nat :=
  if x.deref 0 = '/' then do op (.iget ROOTINO); pure ROOTINO
  else do let cwd ← op .cwd; op (.idup cwd); pure cwd

def namex (x : CString) (nameiparent : Bool) (name : Buf) : P (Option Nat × Buf) := do
  let ip ← startInode x
  namexLoop tree x nameiparent (x.chars.length + 1) ip 0 name

/-- `name` is not initialized. -/
def namei (x : CString) (name : Buf) : P (Option Nat) := do
  let r ← namex tree x false name
  pure r.1

def nameiparent (x : CString) (name : Buf) : P (Option Nat × Buf) := namex tree x true name

/-! ## The reference walk -/

/-- The parts of a path between slashes, without empty ones, cut to `DIRSIZ` characters. -/
def components (path : List Char) : List Name := ((path.splitOn '/').filter (· ≠ [])).map (·.take DIRSIZ)

def lookup (d : Dinode) (name : Name) : Option Nat := (d.ents.find? fun e => e.inum ≠ 0 ∧ e.name = name).map (·.inum)

def walk (g : Graph) (ip : Nat) : List Name → Option Nat
  | [] => some ip
  | name :: rest => if (g ip).type = .dir then (lookup (g ip) name).bind fun next => walk g next rest else none

def walkParent (g : Graph) (ip : Nat) (names : List Name) : Option (Nat × Name) :=
  names.getLast?.bind fun last =>
    (walk g ip names.dropLast).bind fun dp => if (g dp).type = .dir then some (dp, last) else none

/-! ## Names -/

theorem strncmp_eq_zero {a b : List Char} (n k : Nat) (ha : a.length = k + n) (hb : b.length = k + n) :
    strncmp (fun k => a.getD k '\x00') (fun k => b.getD k '\x00') n k = 0 ↔
      (a.drop k).takeWhile (· ≠ '\x00') = (b.drop k).takeWhile (· ≠ '\x00') := by
  induction n generalizing k with
  | zero =>
    rw [List.drop_eq_nil_of_le (by omega), List.drop_eq_nil_of_le (by omega)]
    simp [strncmp]
  | succ n ih =>
    have hak : k < a.length := by omega
    have hbk : k < b.length := by omega
    have hga : a.getD k '\x00' = a[k] := by simp [hak]
    have hgb : b.getD k '\x00' = b[k] := by simp [hbk]
    rw [List.drop_eq_getElem_cons hak, List.drop_eq_getElem_cons hbk, strncmp, hga, hgb]
    generalize a[k] = c
    generalize b[k] = d
    by_cases hc : c = '\x00'
    · -- The first name ends here, and so must the second.
      subst hc
      rw [if_neg (by simp), List.takeWhile_cons_of_neg (by simp)]
      by_cases hd : d = '\x00'
      · subst hd
        simp
      · rw [List.takeWhile_cons_of_pos (by simpa using hd)]
        refine iff_of_false (fun he => hd ?_) (by simp)
        refine Char.toNat_inj.mp ?_
        omega
    · rw [List.takeWhile_cons_of_pos (by simpa using hc)]
      by_cases hcd : c = d
      · subst hcd
        rw [if_pos ⟨hc, rfl⟩, List.takeWhile_cons_of_pos (by simpa using hc), ih (k + 1) (by omega) (by omega)]
        simp
      · rw [if_neg (by simp [hcd])]
        refine iff_of_false (fun he => hcd (Char.toNat_inj.mp (by omega))) fun he => ?_
        by_cases hd : d = '\x00'
        · rw [List.takeWhile_cons_of_neg (by simpa using hd)] at he
          cases he
        · rw [List.takeWhile_cons_of_pos (by simpa using hd)] at he
          exact hcd (List.cons.inj he).1

theorem namecmp_eq_zero (s t : Buf) : namecmp s t = 0 ↔ cname s = cname t := by
  unfold namecmp
  rw [strncmp_eq_zero DIRSIZ 0 (by simp) (by simp)]
  exact Iff.rfl

theorem dirloop_eq (name : Buf) (ents : List RawDirent) :
    dirloop name ents = ((ents.map RawDirent.entry).find? fun e => e.inum ≠ 0 ∧ e.name = cname name).map (·.inum) := by
  induction ents with
  | nil => rfl
  | cons de rest ih =>
    rw [dirloop, List.map_cons, List.find?_cons, ih]
    by_cases hi : de.inum = 0
    · rw [if_pos hi]
      simp [RawDirent.entry, hi]
    · rw [if_neg hi]
      by_cases hn : cname name = cname de.name
      · rw [if_pos ((namecmp_eq_zero _ _).mpr hn)]
        simp [RawDirent.entry, hi, hn]
      · rw [if_neg (mt (namecmp_eq_zero _ _).mp hn)]
        simp [RawDirent.entry, hi, Ne.symm hn]

/-! ## Elements -/

section

variable {x : CString} {s len : Nat} {w : List Char}

theorem deref_word {l : List Char} (h : x.chars.drop s = w ++ l) (k : Nat) (hk : k < w.length) :
    x.deref (s + k) = w[k] := by
  have hd : x.chars.drop (s + k) = w[k] :: (w.drop (k + 1) ++ l) := by
    rw [← List.drop_drop, h, List.drop_append_of_le_length (by omega), List.drop_eq_getElem_cons hk, List.cons_append]
  exact CString.deref_of_drop hd

theorem cname_long {l : List Char} (name : Buf) (h : x.chars.drop s = w ++ l) (hw : DIRSIZ ≤ w.length)
    (hnul : ∀ c ∈ w, c ≠ '\x00') : cname (memmove name x s DIRSIZ) = w.take DIRSIZ := by
  have hlist : List.ofFn (memmove name x s DIRSIZ) = w.take DIRSIZ := by
    refine List.ext_getElem (by simp [hw]) fun k hk hk' => ?_
    rw [List.length_ofFn] at hk
    rw [List.getElem_ofFn, List.getElem_take, memmove, if_pos hk, deref_word h k (by omega)]
  rw [cname, hlist, List.takeWhile_eq_self_iff]
  intro c hc
  simpa using hnul c (List.mem_of_mem_take hc)

theorem cname_short {l : List Char} (name : Buf) (h : x.chars.drop s = w ++ l) (hw : w.length < DIRSIZ)
    (hnul : ∀ c ∈ w, c ≠ '\x00') : cname (terminate (memmove name x s w.length) w.length) = w := by
  -- Behind the NUL is what was there before.
  have hlist : ∃ rest, List.ofFn (terminate (memmove name x s w.length) w.length) = w ++ '\x00' :: rest := by
    refine ⟨(List.ofFn name).drop (w.length + 1), List.ext_getElem (by simp; omega) fun k hk hk' => ?_⟩
    rw [List.length_ofFn] at hk
    rw [List.getElem_ofFn, terminate]
    rcases Nat.lt_trichotomy k w.length with hlt | heq | hgt
    · rw [if_neg (by simpa using Nat.ne_of_lt hlt), memmove, if_pos hlt, List.getElem_append_left hlt,
        deref_word h k hlt]
    · subst heq
      rw [if_pos rfl, List.getElem_append_right (Nat.le_refl _)]
      simp
    · rw [if_neg (by simpa using Nat.ne_of_gt hgt), memmove, if_neg (by simpa using Nat.le_of_lt hgt),
        List.getElem_append_right (Nat.le_of_lt hgt)]
      obtain ⟨m, rfl⟩ : ∃ m, k = w.length + 1 + m := ⟨k - w.length - 1, by omega⟩
      have hm : w.length + 1 + m - w.length = m + 1 := by omega
      simp only [hm, List.getElem_cons_succ, List.getElem_drop, List.getElem_ofFn]
  obtain ⟨rest, hlist⟩ := hlist
  rw [cname, hlist, List.takeWhile_append_of_pos (by simpa using hnul), List.takeWhile_cons_of_neg (by simp),
    List.append_nil]

end

theorem skipelem_eq (x : CString) (path : Nat) (name : Buf) :
    (skipelem x path name = none ∧ Xv6.skipelem (x.chars.drop path) = none) ∨
    ∃ path' name', skipelem x path name = some (path', name') ∧
      Xv6.skipelem (x.chars.drop path) = some (cname name', x.chars.drop path') := by
  have hdrop := x.drop_skipWhile (· = '/') path
  unfold skipelem Xv6.skipelem
  dsimp only
  generalize x.skipWhile (· = '/') path = s at hdrop ⊢
  rw [← hdrop]
  rcases hd : x.chars.drop s with _ | ⟨c, l⟩
  · rw [if_pos (CString.deref_of_nil hd)]
    exact .inl ⟨rfl, rfl⟩
  have hnul : ∀ c ∈ x.chars.drop s, c ≠ '\x00' := fun c hc => x.noNul c (List.mem_of_mem_drop hc)
  have htest : x.skipWhile (fun c => c ≠ '/' && c ≠ '\x00') s = x.skipWhile (· ≠ '/') s :=
    x.skipWhile_congr (fun c hc => by simp [hc]) s
  have hlen : x.skipWhile (· ≠ '/') s - s = ((x.chars.drop s).takeWhile (· ≠ '/')).length := by
    rw [x.skipWhile_eq, Nat.add_sub_cancel_left]
  have hsplit : x.chars.drop s = (x.chars.drop s).takeWhile (· ≠ '/') ++ (x.chars.drop s).dropWhile (· ≠ '/') :=
    (List.takeWhile_append_dropWhile ..).symm
  have hword : ∀ c ∈ (x.chars.drop s).takeWhile (· ≠ '/'), c ≠ '\x00' :=
    fun c hc => hnul c ((List.takeWhile_sublist _).subset hc)
  have hne : x.deref s ≠ '\x00' := by
    rw [Ne, CString.deref_eq_nul, hd]
    exact List.cons_ne_nil c l
  rw [if_neg hne, htest, hlen]
  refine .inr ⟨_, _, rfl, ?_⟩
  rw [x.drop_skipWhile, x.drop_skipWhile]
  refine congrArg some (Prod.ext ?_ (by rw [← hd]))
  rw [← hd]
  split_ifs with hlong
  · exact (cname_long name hsplit hlong hword).symm
  · rw [cname_short name hsplit (by omega) hword]
    exact List.take_of_length_le (by omega)

/-! ## Components -/

theorem components_nil : components [] = [] := by simp [components]

theorem components_append (a b : List Char) : components (a ++ '/' :: b) = components a ++ components b := by
  unfold components List.splitOn
  rw [List.splitOnP_append_cons a b (by simp), List.filter_append, List.map_append]

theorem components_slash (l : List Char) : components ('/' :: l) = components l := by
  have h := components_append [] l
  rwa [components_nil, List.nil_append, List.nil_append] at h

theorem components_word {w : List Char} (hw : '/' ∉ w) (hne : w ≠ []) : components w = [w.take DIRSIZ] := by
  unfold components
  rw [List.splitOn_eq_singleton hw]
  simp [hne]

theorem components_dropWhile (l : List Char) : components (l.dropWhile (· = '/')) = components l := by
  induction l with
  | nil => rfl
  | cons c l ih =>
    by_cases hc : c = '/'
    · subst hc
      rw [List.dropWhile_cons_of_pos (by simp), ih, components_slash]
    · rw [List.dropWhile_cons_of_neg (by simpa using hc)]

theorem components_eq (path : List Char) :
    components path = match Xv6.skipelem path with
      | none => []
      | some (name, rest) => name :: components rest := by
  rw [← components_dropWhile path]
  unfold Xv6.skipelem
  rcases hs : path.dropWhile (· = '/') with _ | ⟨c, l⟩
  · exact components_nil
  have hc : c ≠ '/' := by
    have := List.head_dropWhile_not (l := path) (· = '/') (by rw [hs]; simp)
    simpa [hs] using this
  dsimp only
  rw [components_dropWhile]
  have hword : '/' ∉ (c :: l).takeWhile (· ≠ '/') := by
    intro hm
    simpa using List.mem_takeWhile_imp hm
  have hne : (c :: l).takeWhile (· ≠ '/') ≠ [] := by
    rw [List.takeWhile_cons_of_pos (by simpa using hc)]
    exact List.cons_ne_nil _ _
  have hsplit := List.takeWhile_append_dropWhile (p := (· ≠ '/')) (l := c :: l)
  -- Behind the word is the end or a slash.
  rcases hrest : (c :: l).dropWhile (· ≠ '/') with _ | ⟨d, rest⟩
  · rw [hrest, List.append_nil] at hsplit
    rw [components_nil, ← components_word hword hne, hsplit]
  · obtain rfl : d = '/' := by
      have := List.head_dropWhile_not (l := c :: l) (· ≠ '/') (by rw [hrest]; simp)
      simp only [hrest, List.head_cons] at this
      simpa using this
    rw [hrest] at hsplit
    rw [components_slash]
    conv_lhs => rw [← hsplit, components_append, components_word hword hne]
    rfl

theorem elems_eq_components (path : List Char) : elems path = components path := by
  induction hn : path.length using Nat.strongRecOn generalizing path with
  | ind n ih =>
    rw [elems_eq, components_eq]
    rcases hs : Xv6.skipelem path with _ | ⟨name, rest⟩
    · rfl
    · dsimp only
      rw [ih rest.length (hn ▸ skipelem_length path name rest hs) rest rfl]

/-! ## The walk -/

section

variable {g : Graph} {ip : Nat} {name : Name} {rest : List Name}

theorem walk_cons : walk g ip (name :: rest) =
    if (g ip).type = .dir then (lookup (g ip) name).bind fun next => walk g next rest else none := rfl

theorem walkParent_one : walkParent g ip [name] = if (g ip).type = .dir then some (ip, name) else none := by
  simp [walkParent, walk]

theorem walkParent_cons (hrest : rest ≠ []) : walkParent g ip (name :: rest) =
    if (g ip).type = .dir then (lookup (g ip) name).bind fun next => walkParent g next rest else none := by
  obtain ⟨front, last, rfl⟩ := List.eq_nil_or_concat' rest |>.resolve_left hrest
  have hlast : (name :: (front ++ [last])).getLast? = some last := by
    rw [← List.cons_append, List.getLast?_concat]
  have hfront : (name :: (front ++ [last])).dropLast = name :: front := by
    rw [← List.cons_append, List.dropLast_concat]
  simp only [walkParent, hlast, hfront, List.getLast?_concat, List.dropLast_concat, Option.bind_some, walk_cons]
  split_ifs
  · rw [Option.bind_assoc]
  · rfl

end

def Found (g : Graph) (nameiparent : Bool) (ip : Nat) (names : List Name) (r : Option Nat × Buf) : Prop :=
  if nameiparent then walkParent g ip names = r.1.map fun dp => (dp, cname r.2) else walk g ip names = r.1

/-! ## `namex` -/

section

variable {b : Fs nproc} {p : Fin nproc} {g : Graph} {h : Nat → Nat} {L : List Nat} {K : Finset Nat} {s : Fs nproc}

theorem active_le (hb : At b p g h [] ∅ b) (hs : At b p g h L K s) : s.active ≤ b.active + L.length := by
  unfold Fs.active
  rw [hs.ninodes]
  simp only [hs.ref, hb.ref, List.count_nil, Nat.add_zero]
  have hmem : ((List.range b.ninodes).filter (· ∈ L)).length ≤ L.length := by
    refine ((List.nodup_range.filter _).subperm fun i hi => ?_).length_le
    simpa using (List.mem_filter.mp hi).2
  rw [← List.countP_eq_length_filter] at hmem
  refine Nat.le_trans ?_ (Nat.add_le_add_left hmem _)
  induction List.range b.ninodes with
  | nil => simp
  | cons i l ih =>
    simp only [List.countP_cons]
    by_cases hi : i ∈ L
    · simp only [hi, decide_true, if_true]
      split_ifs <;> omega
    · have : L.count i = 0 := List.count_eq_zero.mpr hi
      simp only [this, Nat.add_zero, hi, decide_false]
      split_ifs <;> simp at * <;> omega

variable {tree : Nat → List RawDirent} (htree : ∀ d, (g d).type = .dir → (g d).ents = (tree d).map RawDirent.entry)
  (hb : At b p g h [] ∅ b) (ht : g.Tidy h) (hg : g.Sound h)
include htree hb

/-- Fewer than two entries of `icache` are free. -/
def full (b : Fs nproc) (e : Stop) : Prop := e = .panic "iget: no inodes" ∧ NINODE < b.active + 2

theorem dirlookup_returns {dp : Nat} (name : Buf) (hs : At b p g h L K s) (hL : L.length ≤ 1)
    (hd : (g dp).type = .dir) :
    Does p (full b) (dirlookup tree dp name) (fun r s' => r = lookup (g dp) (cname name) ∧
      At b p g h (r.toList ++ L) K s') s := by
  have hfound : dirloop name (tree dp) = lookup (g dp) (cname name) := by
    rw [dirloop_eq, lookup, htree dp hd]
  unfold dirlookup
  rw [does_bind, does_type, hs.dinode, if_neg (not_not.mpr hd), hfound]
  rcases lookup (g dp) (cname name) with _ | next
  · exact ⟨rfl, hs⟩
  · rw [does_bind]
    refine (iget_returns next hs fun hfull => ⟨rfl, ?_⟩).mono fun _ s hs => ⟨rfl, hs⟩
    have := active_le hb hs
    omega

include ht hg

theorem namexLoop_returns (x : CString) (parent : Bool) (n ip path : Nat) (name : Buf)
    (hn : (x.chars.drop path).length < n) (hip : (g ip).type ≠ .free) (hs : At b p g h [ip] ∅ s) :
    Does p (full b) (namexLoop tree x parent n ip path name)
      (fun r s' => Found g parent ip (components (x.chars.drop path)) r ∧ At b p g h r.1.toList ∅ s') s := by
  induction n generalizing ip path name s with
  | zero => cases hn
  | succ n ih =>
    unfold namexLoop
    rcases skipelem_eq x path name with ⟨hnone, hend⟩ | ⟨path', name', hsome, hnext⟩
    · rw [hnone, components_eq, hend]
      unfold Found
      split_ifs
      · rw [does_bind]
        exact (iput_kept_returns ip hs ht (Finset.notMem_empty ip)).mono fun _ s hs => ⟨rfl, hs⟩
      · exact ⟨rfl, hs⟩
    · have hlast : x.deref path' = '\x00' ↔ components (x.chars.drop path') = [] := by
        rw [CString.deref_eq_nul, ← elems_eq_components, elems_rest _ _ _ hnext]
      have hshort := skipelem_length _ _ _ hnext
      rw [hsome, components_eq, hnext]
      dsimp only
      have hone : ip ∈ insert ip (∅ : Finset Nat) := Finset.mem_insert_self ip ∅
      have herase : (insert ip (∅ : Finset Nat)).erase ip = ∅ := by simp
      rw [does_bind]
      refine (ilock_returns ip hs (Finset.notMem_empty ip) (by simp) fun hfree => absurd hfree hip).mono ?_
      rintro _ s ⟨hs, -⟩
      rw [does_bind, does_type, hs.dinode]
      by_cases hd : (g ip).type = .dir
      · rw [if_neg (not_not.mpr hd)]
        split_ifs with hstop
        · -- One level early.
          rw [does_bind]
          refine (iunlock_returns ip hs hone).mono fun _ s hs => ⟨?_, herase ▸ hs⟩
          rw [Found, if_pos hstop.1, hlast.mp hstop.2, walkParent_one, if_pos hd]
          rfl
        rw [does_bind]
        refine (dirlookup_returns htree hb name' hs (by simp) hd).mono ?_
        rintro r s ⟨hr, hs⟩
        have hfound : Found g parent ip (cname name' :: components (x.chars.drop path')) =
            fun r' => if parent then (r.bind fun next => walkParent g next (components (x.chars.drop path'))) =
                r'.1.map fun dp => (dp, cname r'.2)
              else (r.bind fun next => walk g next (components (x.chars.drop path'))) = r'.1 := by
          funext r'
          unfold Found
          split_ifs with hp
          · rw [walkParent_cons fun hnil => hstop ⟨hp, hlast.mpr hnil⟩, if_pos hd, hr]
          · rw [walk_cons, if_pos hd, hr]
        rw [hfound]
        rcases r with _ | next
        · rw [does_bind]
          refine (iunlockput_returns ip hs ht hone).mono fun _ s hs => ⟨?_, herase ▸ hs⟩
          split_ifs <;> rfl
        · rw [does_bind]
          refine (iunlockput_returns ip (hs.perm (List.Perm.swap ip next [])) ht hone).mono fun _ s hs => ?_
          rw [herase] at hs
          refine (ih next path' name' (by omega) ?_ hs).mono fun r' s hs => hs
          -- The entry leads to an allocated inode.
          obtain ⟨e, he, hinum⟩ := Option.map_eq_some_iff.mp hr.symm
          have hmem := List.mem_of_find?_eq_some he
          have htest := List.find?_some he
          simp only [ne_eq, Bool.decide_and, Bool.and_eq_true, decide_eq_true_eq, decide_not, Bool.not_eq_true',
            decide_eq_false_iff_not] at htest
          exact hinum ▸ hg.named ip hd e hmem htest.1
      · rw [if_pos hd, does_bind]
        refine (iunlockput_returns ip hs ht hone).mono fun _ s hs => ⟨?_, herase ▸ hs⟩
        unfold Found
        split_ifs
        · rcases hrest : components (x.chars.drop path') with _ | ⟨c, rest⟩
          · rw [walkParent_one, if_neg hd]
            rfl
          · rw [walkParent_cons (List.cons_ne_nil c rest), if_neg hd]
            rfl
        · rw [walk_cons, if_neg hd]

theorem namex_returns (x : CString) (parent : Bool) (name : Buf) (hcwd : 0 < h (b.cwd p)) :
    Does p (full b) (namex tree x parent name) (fun r s' =>
      Found g parent (Graph.start (b.cwd p) x.chars) (components x.chars) r ∧ At b p g h r.1.toList ∅ s') b := by
  have hslash : x.deref 0 = '/' ↔ x.chars.head? = some '/' := by
    rw [CString.deref, List.getD_eq_getElem?_getD, ← List.head?_eq_getElem?]
    rcases x.chars with _ | ⟨c, l⟩ <;> simp
  have hloop : ∀ ip s, (g ip).type ≠ .free → At b p g h [ip] ∅ s →
      Does p (full b) (namexLoop tree x parent (x.chars.length + 1) ip 0 name)
        (fun r s' => Found g parent ip (components x.chars) r ∧ At b p g h r.1.toList ∅ s') s :=
    fun ip s hip hs => namexLoop_returns htree hb ht hg x parent _ ip 0 name (Nat.lt_succ_self _) hip hs
  unfold namex startInode Graph.start
  rw [does_bind]
  by_cases hroot : x.deref 0 = '/'
  · rw [if_pos hroot, if_pos (hslash.mp hroot), does_bind]
    refine (iget_returns ROOTINO hb fun hfull => ⟨rfl, by omega⟩).mono fun _ s hs => hloop ROOTINO s hg.root hs
  · rw [if_neg hroot, if_neg (mt hslash.mpr hroot), does_bind, does_cwd, does_bind]
    exact (idup_spec (b.cwd p) hb).mono fun _ s hs => hloop (b.cwd p) s (hg.held _ hcwd) hs

end

/-- A directory tree, as process `p` finds it when no other call is running: entries and open inodes are allocated. -/
structure Tree (p : Fin nproc) (tree : Nat → List RawDirent) (s : Fs nproc) : Prop where
  ents : ∀ d, (s.dinode d).type = .dir → (s.dinode d).ents = (tree d).map RawDirent.entry
  root : (s.dinode ROOTINO).type ≠ .free
  named : ∀ d, (s.dinode d).type = .dir → ∀ e ∈ (s.dinode d).ents, e.inum ≠ 0 → (s.dinode e.inum).type ≠ .free
  held : ∀ i, 0 < (s.inode i).ref → (s.dinode i).type ≠ .free
  cwd : 0 < (s.inode (s.cwd p)).ref
  unlocked : ∀ i, (s.inode i).owner = none
  valid : ∀ i, (s.inode i).valid = true → (s.dinode i).type ≠ .free
  nlink : ∀ i, 0 ≤ (s.dinode i).nlink
  unlinked : ∀ i, (s.dinode i).type ≠ .free → (s.dinode i).nlink = 0 → (s.inode i).valid = true ∧ 0 < (s.inode i).ref

/-- The tree is as before, and the call has left one reference, to the inode that it returns. -/
structure Left (s s' : Fs nproc) (ip : Option Nat) : Prop where
  dinode : s'.dinode = s.dinode
  ref : ∀ i, (s'.inode i).ref = (s.inode i).ref + ip.toList.count i
  unlocked : ∀ i, (s'.inode i).owner = none

variable {tree} {p : Fin nproc} {s : Fs nproc}

theorem Tree.namex (hs : Tree p tree s) (x : CString) (parent : Bool) (name : Buf) :
    Does p (full s) (namex tree x parent name) (fun r s' =>
      Found s.dinode parent (Graph.start (s.cwd p) x.chars) (components x.chars) r ∧ Left s s' r.1) s := by
  have hat : At s p s.dinode (fun i => (s.inode i).ref) [] ∅ s :=
    ⟨rfl, fun _ => rfl, fun i => by rw [hs.unlocked i]; simp, by simp, hs.valid, hs.unlinked, rfl⟩
  have hsound : s.dinode.Sound fun i => (s.inode i).ref := ⟨hs.root, hs.held, hs.named⟩
  have htidy : s.dinode.Tidy fun i => (s.inode i).ref := ⟨hs.nlink, fun i hi h0 => (hs.unlinked i hi h0).2⟩
  refine (namex_returns hs.ents hat htidy hsound x parent name hs.cwd).mono fun r s' hr =>
    ⟨hr.1, hr.2.dinode, hr.2.ref, fun i => ?_⟩
  rw [hr.2.owner]
  simp

/-- **`namei` and `nameiparent` are the walk.** They stop only if `icache` has fewer than two free entries. -/
theorem path_walk (hs : Tree p tree s) (x : CString) (name : Buf) :
    Does p (full s) (namei tree x name) (fun r s' =>
      r = walk s.dinode (Graph.start (s.cwd p) x.chars) (components x.chars) ∧ Left s s' r) s ∧
    Does p (full s) (nameiparent tree x name) (fun r s' =>
      (r.1.map fun dp => (dp, cname r.2)) = walkParent s.dinode (Graph.start (s.cwd p) x.chars) (components x.chars) ∧
      Left s s' r.1) s := by
  constructor
  · unfold namei
    rw [does_bind]
    refine (hs.namex x false name).mono fun r s' hr => ⟨?_, hr.2⟩
    have hwalk := hr.1
    unfold Found at hwalk
    exact hwalk.symm
  · refine (hs.namex x true name).mono fun r s' hr => ⟨?_, hr.2⟩
    have hwalk := hr.1
    unfold Found at hwalk
    exact hwalk.symm

/-! ## A file in a directory -/

def nameBuf (name : Name) : Buf := fun k => name.getD k.val '\x00'

/-- The root has a directory `d` with a file, whose name has `DIRSIZ` characters. -/
def demoTree : Nat → List RawDirent
  | 1 => [⟨1, nameBuf ['.']⟩, ⟨1, nameBuf ['.', '.']⟩, ⟨2, nameBuf ['d']⟩]
  | 2 => [⟨2, nameBuf ['.']⟩, ⟨1, nameBuf ['.', '.']⟩, ⟨3, nameBuf "a-longer-name-".toList⟩]
  | _ => []

def demo : Fs 1 where
  ninodes := 4
  dinode i :=
    { type := if i = 1 ∨ i = 2 then .dir else if i = 3 then .file else .free, major := 0, minor := 0, nlink := 1,
      ents := (demoTree i).map RawDirent.entry }
  inode i := { ref := if i = 2 then 1 else 0, valid := false, owner := none }
  cwd _ := 2
  file _ := ⟨0, none⟩
  ofile _ _ := none

theorem demo_tree : Tree 0 demoTree demo := by
  have htype : ∀ i, i = 1 ∨ i = 2 ∨ i = 3 → (demo.dinode i).type ≠ .free := by
    rintro i (rfl | rfl | rfl) <;> decide
  refine ⟨fun _ _ => rfl, by decide, fun d hd e he h0 => htype _ ?_, fun i hi => htype i ?_, by decide, fun _ => rfl,
    (fun _ h => by cases h), (fun _ => Int.zero_le_ofNat 1), (fun _ _ h => by cases h)⟩
  · have hd' : d = 1 ∨ d = 2 := by
      by_contra hne
      simp only [demo, if_neg hne] at hd
      split_ifs at hd
    rcases hd' with rfl | rfl
    · simp only [demo, demoTree, RawDirent.entry, List.map_cons, List.map_nil, List.mem_cons, List.not_mem_nil,
        or_false] at he
      rcases he with rfl | rfl | rfl <;> simp
    · simp only [demo, demoTree, RawDirent.entry, List.map_cons, List.map_nil, List.mem_cons, List.not_mem_nil,
        or_false] at he
      rcases he with rfl | rfl | rfl <;> simp
  · simp only [demo] at hi
    split_ifs at hi with h
    · exact .inr (.inl h)
    · exact absurd hi (Nat.lt_irrefl 0)

/-- There are slashes around the components, and the second is too long. -/
def demoPath : CString := ⟨"//d///a-longer-name-than-fits/".toList, by simp⟩

theorem path_walk_demo : Does 0 (full demo) (namei demoTree demoPath (nameBuf [])) (fun r _ => r = some 3) demo := by
  have hwalk : walk demo.dinode (Graph.start (demo.cwd 0) demoPath.chars) (components demoPath.chars) = some 3 := by
    decide +kernel
  exact (path_walk demo_tree demoPath (nameBuf [])).1.mono fun r _ hr => hr.1.trans hwalk

end Xv6.Path
