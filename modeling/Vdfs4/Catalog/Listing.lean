import Vdfs4.Catalog.Lookup

/-!
# Directory listing

`vdfs4_iterate` emits the entries of a directory until `dir_emit` refuses one, and is called
again for the rest. Between two calls it remembers the **number of entries** emitted and, when
the memory for it could be allocated, the **name** of the refused entry; with a name it resumes
through `vdfs4_cattree_find`.

* `DirFile`, `iterateLoop`, `vdfs4Iterate` — one call;
* `listing` — successive calls, each with the number of entries it may emit, up to one that is
  not refused;
* `Paged` — what one call emits of the entries in front of it and what it remembers;
* `listing_complete_iff` — every listing is complete **if and only if** no live entry has the
  back link of the directory as the last record of its name.
-/

namespace Vdfs4

open OrderedMap List

/-! ### The code -/

/-- The open directory between two calls: `ctx->pos` and the name in `filp->private_data`. -/
structure DirFile where
  pos : Nat
  privateData : Option CString
deriving DecidableEq

/-- What one call leaves: the open directory, the records it emitted after the dots and the
error it returns. -/
structure IterateResult where
  file : DirFile
  emitted : Catalog
  ret : Option Errno

/-- One `dir_emit`: `none` when it refuses, otherwise what it will still take (without a bound
for `none`). -/
def dirEmit : Option Nat → Option (Option Nat)
  | none => some none
  | some 0 => none
  | some (n + 1) => some (some n)

/-- `dir_emit_dots`; the flag says that both dots are out. -/
def dirEmitDots (room : Option Nat) (f : DirFile) : Bool × Option Nat × DirFile :=
  let dotdot (room : Option Nat) (f : DirFile) : Bool × Option Nat × DirFile :=
    if f.pos = 1 then
      match dirEmit room with
      | none => (false, room, f)
      | some room => (true, room, { f with pos := 2 })
    else (true, room, f)
  if f.pos = 0 then
    match dirEmit room with
    | none => (false, room, f)
    | some room => dotdot room { f with pos := 1 }
  else dotdot room f

/-- The entry at which `dir_emit` refused is remembered; `allocFails` is the failure of its
`kmalloc`. -/
def rememberName (allocFails : Bool) (f : DirFile) (name : CString) : IterateResult :=
  if f.privateData = none ∧ allocFails = true then ⟨f, [], some .enomem⟩
  else ⟨{ f with privateData := some name }, [], none⟩

/-- The directory has no more records. -/
def endOfDir (dir : Nat) : Catalog → Bool
  | [] => true
  | record :: _ => decide (record.1.parentId ≠ dir)

/-- The loop of `vdfs4_iterate` over the records from the first one on. -/
def iterateLoop (dir : Nat) (allocFails : Bool) :
    Option Nat → Nat → DirFile → Catalog → IterateResult
  | _, _, f, [] => ⟨f, [], none⟩
  | room, pos, f, record :: rest =>
    if record.1.parentId ≠ dir then ⟨f, [], none⟩
    else if record.2.recordType = .ilink ∨ record.2.isOrphan = true then
      if endOfDir dir rest then ⟨{ f with privateData := none }, [], none⟩
      else iterateLoop dir allocFails room pos f rest
    else if f.privateData = none ∧ pos < f.pos then
      if endOfDir dir rest then ⟨{ f with privateData := none }, [], none⟩
      else iterateLoop dir allocFails room (pos + 1) f rest
    else
      match dirEmit room with
      | none => rememberName allocFails f record.1.name
      | some room =>
        let f := { f with pos := f.pos + 1 }
        if endOfDir dir rest then ⟨{ f with privateData := none }, [record], none⟩
        else
          let r := iterateLoop dir allocFails room (pos + 1) f rest
          { r with emitted := record :: r.emitted }

/-- `vdfs4_iterate`. -/
def vdfs4Iterate (comp : Comparison) (c : Catalog) (dir : Nat) (allocFails : Bool)
    (room : Option Nat) (f : DirFile) : IterateResult :=
  match dirEmitDots room f with
  | (false, _, f) => ⟨f, [], none⟩
  | (true, room, f) =>
    let record :=
      match f.privateData with
      | none => vdfs4CattreeGetFirstChild comp c dir
      | some name => vdfs4CattreeFind comp c dir name
    match record with
    | .error e => ⟨f, [], some e⟩
    | .ok (record, rest) => iterateLoop dir allocFails room 2 f (record :: rest)

/-- A listing: calls that may be refused, each with the number of entries it may emit and the
fate of its `kmalloc`, then one that is not. -/
def listing (comp : Comparison) (c : Catalog) (dir : Nat) : List (Nat × Bool) → DirFile → Catalog
  | [], f => (vdfs4Iterate comp c dir false none f).emitted
  | (room, allocFails) :: calls, f =>
    let r := vdfs4Iterate comp c dir allocFails (some room) f
    r.emitted ++ listing comp c dir calls r.file

/-- A directory that was just opened. -/
def DirFile.opened : DirFile := ⟨0, none⟩

/-! ### One call -/

/-- The live records of a directory. -/
def liveIn (dir : Nat) (l : Catalog) : Catalog :=
  l.filter fun x => decide (x.1.parentId = dir ∧ x.2.Live)

variable {comp : Comparison} {c l : Catalog} {dir pos : Nat} {x e : CattreeKey × CatalogRecord}
  {room : Option Nat} {r : IterateResult} {allocFails : Bool}

theorem mem_liveIn : x ∈ liveIn dir l ↔ x ∈ l ∧ x.1.parentId = dir ∧ x.2.Live := by
  simp [liveIn]

theorem liveIn_cons_live (hp : x.1.parentId = dir) (hx : x.2.Live) :
    liveIn dir (x :: l) = x :: liveIn dir l := by
  simp [liveIn, hp, hx]

theorem liveIn_cons_not_live (hx : ¬ x.2.Live) : liveIn dir (x :: l) = liveIn dir l := by
  simp [liveIn, hx]

theorem liveIn_append (l1 l2 : Catalog) :
    liveIn dir (l1 ++ l2) = liveIn dir l1 ++ liveIn dir l2 := by
  simp [liveIn]

theorem liveIn_eq_nil (h : ∀ x ∈ l, x.1.parentId = dir → ¬ x.2.Live) : liveIn dir l = [] := by
  rw [liveIn, filter_eq_nil_iff]
  intro x hx hq
  obtain ⟨hp, hlive⟩ := of_decide_eq_true hq
  exact h x hx hp hlive

/-- Past the records of the directory there are no more of them. -/
theorem liveIn_eq_nil_of_endOfDir (hl : l.Ordered comp) (hge : ∀ x ∈ l, dir ≤ x.1.parentId)
    (hend : endOfDir dir l = true) : liveIn dir l = [] := by
  refine liveIn_eq_nil fun x hx hp => ?_
  cases l with
  | nil => exact absurd hx not_mem_nil
  | cons y l =>
    have hy := of_decide_eq_true hend
    have hdir := hge y mem_cons_self
    rcases mem_cons.mp hx with rfl | hx
    · exact absurd hp hy
    · have hlt := Comparison.rank_lt_iff.mp ((Sorted.cons_iff.mp hl).1 x hx)
      omega

/-- **What one call does with the entries `E` in front of it**: it emits all of them and forgets
the name, or it emits as many as it may and remembers the next one. -/
structure Paged (E : Catalog) (allocFails : Bool) (room : Option Nat) (f : DirFile)
    (r : IterateResult) : Prop where
  whole : (∀ n, room = some n → E.length ≤ n) → r.emitted = E ∧ r.file = ⟨f.pos + E.length, none⟩
  refused : ∀ n, room = some n → ∀ e, E[n]? = some e →
    r.emitted = E.take n ∧ r.file =
      ⟨f.pos + n, if f.privateData = none ∧ allocFails = true then none else some e.1.name⟩

theorem Paged.nil {f : DirFile} (hr : r.emitted = [])
    (hf : r.file = ⟨f.pos, none⟩) : Paged [] allocFails room f r :=
  ⟨fun _ => ⟨hr, hf⟩, fun n _ e he => by simp at he⟩

theorem Paged.emit {E : Catalog} {room' : Option Nat} {f : DirFile}
    (hroom : dirEmit room = some room')
    (h : Paged E allocFails room' { f with pos := f.pos + 1 } r) :
    Paged (x :: E) allocFails room f { r with emitted := x :: r.emitted } := by
  have hsucc : f.pos + 1 + E.length = f.pos + (x :: E).length := by
    rw [length_cons]
    omega
  rcases room with - | n
  · obtain rfl : none = room' := Option.some.inj hroom
    obtain ⟨hem, hfile⟩ := h.whole fun n hn => by cases hn
    exact ⟨fun _ => ⟨by rw [hem], by rw [← hsucc]; exact hfile⟩, fun n hn => by cases hn⟩
  rcases n with - | n
  · cases hroom
  obtain rfl : some n = room' := Option.some.inj hroom
  constructor
  · intro hlen
    obtain ⟨hem, hfile⟩ := h.whole fun m hm => by
      have := hlen (n + 1) rfl
      cases hm
      omega
    exact ⟨by rw [hem], by rw [← hsucc]; exact hfile⟩
  · intro m hm e he
    cases hm
    obtain ⟨hem, hfile⟩ := h.refused n rfl e he
    refine ⟨by rw [hem, take_succ_cons], ?_⟩
    rw [show f.pos + (n + 1) = f.pos + 1 + n by omega]
    exact hfile

theorem Paged.refuse (E : Catalog) (allocFails : Bool) (f : DirFile) (hroom : dirEmit room = none) :
    Paged (x :: E) allocFails room f (rememberName allocFails f x.1.name) := by
  obtain rfl : room = some 0 := by
    rcases room with - | - | n
    · cases hroom
    · rfl
    · cases hroom
  refine ⟨fun hlen => absurd (hlen 0 rfl) (by simp), fun n hn e he => ?_⟩
  cases hn
  obtain rfl : x = e := by simpa using he
  rw [rememberName]
  split <;> rename_i hfail
  · exact ⟨rfl, by rw [← hfail.1]; rfl⟩
  · exact ⟨rfl, rfl⟩

/-- The entries still to come, without those that were emitted in calls before. -/
def toCome (f : DirFile) (pos : Nat) (l : Catalog) : Catalog :=
  if f.privateData = none then l.drop (f.pos - pos) else l

@[simp] theorem toCome_nil (f : DirFile) (pos : Nat) : toCome f pos [] = [] := by
  simp [toCome]

theorem toCome_eq_self {f : DirFile} (h : ¬ (f.privateData = none ∧ pos < f.pos))
    (m : Catalog) : toCome f pos m = m := by
  rw [toCome]
  split
  · rename_i hnone
    rw [show f.pos - pos = 0 by have := not_and.mp h hnone; omega, drop_zero]
  · rfl

theorem toCome_cons {f : DirFile} (h : f.privateData = none ∧ pos < f.pos)
    (m : Catalog) : toCome f pos (x :: m) = toCome f (pos + 1) m := by
  rw [toCome, toCome, if_pos h.1, if_pos h.1, show f.pos - pos = f.pos - (pos + 1) + 1 by omega,
    drop_succ_cons]

/-- **The loop.** -/
theorem iterateLoop_paged (allocFails : Bool) (room : Option Nat) (pos : Nat) {f : DirFile}
    (hl : l.Ordered comp) (hge : ∀ x ∈ l, dir ≤ x.1.parentId)
    (hname : f.privateData ≠ none → endOfDir dir l = false) :
    Paged (toCome f pos (liveIn dir l)) allocFails room f
      (iterateLoop dir allocFails room pos f l) := by
  -- with a name the first record is in the directory
  have hnone : endOfDir dir l = true → f.privateData = none := fun hend => by
    by_contra h
    rw [hname h] at hend
    cases hend
  induction l generalizing room pos f with
  | nil =>
    rw [show liveIn dir [] = [] from rfl, toCome_nil]
    exact Paged.nil rfl (by rw [iterateLoop, ← hnone rfl])
  | cons record rest ih =>
    obtain ⟨-, hrest⟩ := Sorted.cons_iff.mp hl
    have hgeRest : ∀ x ∈ rest, dir ≤ x.1.parentId := fun x hx => hge x (mem_cons_of_mem _ hx)
    rw [iterateLoop]
    by_cases hp : record.1.parentId = dir
    · rw [if_neg (not_not.mpr hp)]
      -- the rest of the directory, by induction or because there is none
      have hnext : ∀ {room pos f}, Paged (toCome f pos (liveIn dir rest)) allocFails room f
          (if endOfDir dir rest then ⟨{ f with privateData := none }, [], none⟩
            else iterateLoop dir allocFails room pos f rest) := by
        intro room pos f
        by_cases hend : endOfDir dir rest = true
        · rw [if_pos hend, liveIn_eq_nil_of_endOfDir hrest hgeRest hend, toCome_nil]
          exact Paged.nil rfl rfl
        · rw [if_neg hend]
          exact ih room pos hrest hgeRest (fun _ => by simpa using hend) fun h => absurd h hend
      by_cases hskip : record.2.recordType = .ilink ∨ record.2.isOrphan = true
      · -- no entry
        have hnot : ¬ record.2.Live := fun hlive => by
          rcases hskip with h | h
          · exact hlive.1 h
          · rw [hlive.2] at h
            cases h
        rw [if_pos hskip, liveIn_cons_not_live hnot]
        exact hnext
      · have hlive : record.2.Live := by
          rw [not_or, Bool.not_eq_true] at hskip
          exact hskip
        rw [if_neg hskip, liveIn_cons_live hp hlive]
        by_cases hold : f.privateData = none ∧ pos < f.pos
        · -- emitted in a call before
          rw [if_pos hold, toCome_cons hold]
          exact hnext
        rw [if_neg hold, toCome_eq_self hold]
        cases hroom : dirEmit room with
        | none => exact Paged.refuse _ allocFails f hroom
        | some room' =>
          have hold' : ¬ (f.privateData = none ∧ pos + 1 < f.pos + 1) := by simpa using hold
          have h := Paged.emit (x := record) hroom
            (toCome_eq_self (f := { f with pos := f.pos + 1 }) hold' _ ▸
              @hnext room' (pos + 1) { f with pos := f.pos + 1 })
          by_cases hend : endOfDir dir rest = true
          · simpa only [hend, if_true] using h
          · simpa only [hend, Bool.false_eq_true, if_false] using h
    · rw [if_pos hp]
      have hend : endOfDir dir (record :: rest) = true := by simpa [endOfDir] using hp
      rw [liveIn_eq_nil_of_endOfDir hl hge hend, toCome_nil]
      exact Paged.nil rfl (by rw [← hnone hend])

/-! ### Where a call starts -/

/-- The live entry at the back link's mercy: the back link of the directory is the last record
of its name. -/
def HiddenByIlink (comp : Comparison) (c : Catalog) (dir : Nat) (e : CattreeKey × CatalogRecord) :
    Prop :=
  ∃ i ∈ c, Named comp dir e.1.name i ∧ i.2.recordType = .ilink ∧
    ∀ x ∈ c, Named comp dir e.1.name x → x.1.objectId ≤ i.1.objectId

instance (comp : Comparison) (c : Catalog) (dir : Nat) (e : CattreeKey × CatalogRecord) :
    Decidable (HiddenByIlink comp c dir e) :=
  inferInstanceAs (Decidable (∃ i ∈ c, _))

/-- A directory in a sound catalog: records in order with 64 bit numbers, and no two live entries
of one name. -/
structure Listable (comp : Comparison) (c : Catalog) (dir : Nat) : Prop where
  rooted : Rooted comp c
  objectId_lt : ∀ x ∈ c, x.1.objectId < 2 ^ 64
  dir_ne : dir ≠ 0
  unique : ∀ x ∈ c, ∀ y ∈ c, x.2.Live → y.2.Live → x.1.parentId = dir → comp.SameName x.1 y.1 →
    x = y

instance (comp : Comparison) (c : Catalog) (dir : Nat) : Decidable (Listable comp c dir) :=
  decidable_of_iff
    (Rooted comp c ∧ (∀ x ∈ c, x.1.objectId < 2 ^ 64) ∧ dir ≠ 0 ∧
      ∀ x ∈ c, ∀ y ∈ c, x.2.Live → y.2.Live → x.1.parentId = dir → comp.SameName x.1 y.1 → x = y)
    ⟨fun ⟨h₁, h₂, h₃, h₄⟩ => ⟨h₁, h₂, h₃, h₄⟩, fun h => ⟨h.1, h.2, h.3, h.4⟩⟩

/-- The entries behind an entry, by its index. -/
theorem drop_eq_of_getElem? {D l1 l2 : Catalog} {k : Nat} (hnodup : D.Nodup)
    (hD : D = l1 ++ e :: l2) (hk : D[k]? = some e) :
    D.drop k = e :: l2 := by
  have hlen : k = l1.length := by
    have hat : D[l1.length]? = some e := by simp [hD]
    obtain ⟨h1, hk'⟩ := List.getElem?_eq_some_iff.mp hk
    obtain ⟨h2, hat'⟩ := List.getElem?_eq_some_iff.mp hat
    exact hnodup.getElem_inj_iff.mp (hk'.trans hat'.symm)
  rw [hD, hlen, drop_left]

/-- The live entries of a list with only one of them. -/
theorem liveIn_eq_ite (hnodup : l.Nodup) (hone : ∀ x ∈ l, x.1.parentId = dir → x.2.Live → x = e)
    (hp : e.1.parentId = dir) (hlive : e.2.Live) : liveIn dir l = if e ∈ l then [e] else [] := by
  split
  · rename_i he
    obtain ⟨m1, m2, rfl⟩ := append_of_mem he
    have hnot := (nodup_cons.mp (nodup_middle.mp hnodup)).1
    rw [liveIn_append, liveIn_cons_live hp hlive, liveIn_eq_nil fun x hx hxp hl => ?_,
      liveIn_eq_nil fun x hx hxp hl => ?_, nil_append]
    · obtain rfl := hone x (by simp [hx]) hxp hl
      exact hnot (by simp [hx])
    · obtain rfl := hone x (by simp [hx]) hxp hl
      exact hnot (by simp [hx])
  · rename_i he
    exact liveIn_eq_nil fun x hx hxp hl => he (hone x hx hxp hl ▸ hx)

/-- The record of a name with the greatest number is the last of its group. -/
theorem NameGroup.eq_last {name : CString} {lo g hi : Catalog} {i m : CattreeKey × CatalogRecord}
    (hg : NameGroup comp c dir name lo (g ++ [m]) hi) (hc : c.Ordered comp) (hi' : i ∈ c)
    (hin : Named comp dir name i)
    (hmax : ∀ x ∈ c, Named comp dir name x → x.1.objectId ≤ i.1.objectId) : i = m := by
  obtain ⟨hbelow, -, hparts⟩ := hg.around hc rfl
  obtain ⟨hmc, hmn⟩ := hg.mem_iff.mp (show m ∈ g ++ [m] by simp)
  rcases hparts i hi' hin with h | h | h
  · exact absurd (hbelow i h) (hmax m hmc hmn).not_gt
  · exact h
  · exact absurd h not_mem_nil

/-- The search by the name of a live entry ends in front of the entry or at it, unless the back
link hides the entry. -/
theorem NameGroup.passed_iff {lo g hi a b : Catalog} (hg : NameGroup comp c dir e.1.name lo g hi)
    (hc : c.Ordered comp) (hsplit : g = a ++ x :: b) (hx : x.2.isOrphan = false) (heg : e ∈ g)
    (hlive : e.2.Live) (hone : ∀ y ∈ g, y.2.Live → y = e)
    (hcase : b = [] ∨ (∀ z ∈ a, z.2.isOrphan = true) ∧ ∃ b' m, b = b' ++ [m] ∧
      m.2.isOrphan = true) :
    e ∈ x :: b ↔ ¬ HiddenByIlink comp c dir e := by
  obtain ⟨hbelow, -, hparts⟩ := hg.around hc hsplit
  have hxg : x ∈ g := by simp [hsplit]
  constructor
  · rintro he ⟨i, hi', hin, hit, hmax⟩
    rcases hcase with rfl | ⟨-, b', m, rfl, hm⟩
    · obtain rfl : e = x := by simpa using he
      obtain rfl : i = e := (hsplit ▸ hg).eq_last hc hi' hin hmax
      exact hlive.1 hit
    · rw [show a ++ x :: (b' ++ [m]) = (a ++ x :: b') ++ [m] by simp] at hsplit
      obtain rfl : i = m := (hsplit ▸ hg).eq_last hc hi' hin hmax
      rw [CatalogRecord.isOrphan_of_ilink hit] at hm
      cases hm
  · intro hvis
    by_contra hne
    have hea : e ∈ a := by
      rw [hsplit] at heg
      exact (mem_append.mp heg).resolve_right hne
    rcases hcase with rfl | ⟨ha, -⟩
    · refine hvis ⟨x, (hg.mem_iff.mp hxg).1, hg.named x hxg, ?_, fun y hy hyn => ?_⟩
      · refine CatalogRecord.eq_ilink_of_not_live (fun hl => ?_) hx
        exact hne (hone x hxg hl ▸ mem_cons_self)
      · rcases hparts y hy hyn with hy | rfl | hy
        · exact (hbelow y hy).le
        · exact le_rfl
        · exact absurd hy not_mem_nil
    · exact absurd (ha e hea) (by simp [hlive.2])

theorem dirEmitDots_of_le (room : Option Nat) {f : DirFile} (h : 2 ≤ f.pos) :
    dirEmitDots room f = (true, room, f) := by
  rw [dirEmitDots, if_neg (show f.pos ≠ 0 by omega)]
  exact if_neg (show f.pos ≠ 1 by omega)

namespace Listable

/-- **The search by name resumes at the entry**, or behind it when the back link hides it. -/
theorem resume (h : Listable comp c dir) {k : Nat} (hk : (liveIn dir c)[k]? = some e) :
    ∃ x rest, vdfs4CattreeFind comp c dir e.1.name = .ok (x, rest) ∧
      Catalog.Ordered comp (x :: rest) ∧ (∀ y ∈ x :: rest, dir ≤ y.1.parentId) ∧
      endOfDir dir (x :: rest) = false ∧
      liveIn dir (x :: rest) =
        (liveIn dir c).drop (if HiddenByIlink comp c dir e then k + 1 else k) := by
  obtain ⟨hec, hep, hlive⟩ := mem_liveIn.mp (mem_of_getElem? hk)
  have hord := h.rooted.ordered
  obtain ⟨lo, g, hi, hg⟩ := hord.exists_group dir e.1.name
  obtain ⟨lo, z, rfl⟩ := hg.exists_front h.rooted h.dir_ne
  have hgids : ∀ x ∈ g, 0 < x.1.objectId ∧ x.1.objectId < 2 ^ 64 := fun x hx =>
    ⟨Nat.pos_of_ne_zero (h.rooted.objectId_ne x (hg.mem_iff.mp hx).1),
      h.objectId_lt x (hg.mem_iff.mp hx).1⟩
  have heg : e ∈ g := hg.mem_iff.mpr ⟨hec, hep, rfl⟩
  have hone : ∀ x ∈ g, x.2.Live → x = e := fun x hx hl =>
    h.unique x (hg.mem_iff.mp hx).1 e hec hl hlive (hg.named x hx).1
      ((hg.named x hx).trans ⟨hep.symm, rfl⟩)
  have hnodup : c.Nodup := hord.imp fun hlt heq => hlt.ne (congrArg (fun e => comp.rank e.1) heq)
  rcases hg.find_cases hord hgids with ⟨hall, -⟩ | ⟨a, x, b, hsplit, hx, hfind, hcase⟩
  · exact absurd (hall e heg) (by simp [hlive.2])
  have hc : c = (lo ++ [z] ++ a) ++ (x :: (b ++ hi)) := by
    have := hg.eq
    rw [hsplit] at this
    simpa using this
  have hxdir : x.1.parentId = dir := (hg.named x (by simp [hsplit])).1
  have hsuffix : Catalog.Ordered comp (x :: (b ++ hi)) := by
    rw [hc] at hord
    exact (Sorted.append_iff.mp hord).2.1
  refine ⟨x, b ++ hi, hfind, hsuffix, fun y hy => ?_, by simp [endOfDir, hxdir], ?_⟩
  · rcases mem_cons.mp hy with rfl | hy
    · exact hxdir.ge
    · have hlt := Comparison.rank_lt_iff.mp ((Sorted.cons_iff.mp hsuffix).1 y hy)
      omega
  -- the entry is the only live record of the group
  have hgnodup : g.Nodup := by
    rw [hg.eq] at hnodup
    exact (nodup_append.mp (nodup_append.mp hnodup).1).2.1
  have hD : liveIn dir c = liveIn dir (lo ++ [z]) ++ e :: liveIn dir hi := by
    rw [hg.eq, liveIn_append, liveIn_append,
      liveIn_eq_ite hgnodup (fun y hy _ hl => hone y hy hl) hep hlive, if_pos heg]
    simp
  have hdrop : (liveIn dir c).drop k = e :: liveIn dir hi :=
    drop_eq_of_getElem? (List.Nodup.sublist filter_sublist hnodup) hD hk
  have hpart : (x :: b).Nodup := by
    rw [hsplit] at hgnodup
    exact (nodup_append.mp hgnodup).2.1
  have hpassed := hg.passed_iff h.rooted.ordered hsplit hx heg hlive hone hcase
  rw [← cons_append, liveIn_append, liveIn_eq_ite hpart
    (fun y hy _ hl => hone y (by rw [hsplit]; exact mem_append_right _ hy) hl) hep hlive]
  by_cases hhid : HiddenByIlink comp c dir e
  · rw [if_pos hhid, if_neg (mt hpassed.mp (not_not.mpr hhid)), ← tail_drop, hdrop]
    rfl
  · rw [if_neg hhid, if_pos (hpassed.mpr hhid), hdrop]
    rfl

/-- A call without a name starts at the first child and counts. -/
theorem iterate_counted (h : Listable comp c dir) (allocFails : Bool) (room : Option Nat)
    {f : DirFile} {k : Nat} (hpos : f.pos = k + 2) (hname : f.privateData = none) :
    Paged ((liveIn dir c).drop k) allocFails room f
      (vdfs4Iterate comp c dir allocFails room f) := by
  obtain ⟨front, hi, hc, hfront, hge, hfirst⟩ := h.rooted.firstChild_eq h.dir_ne
  have hord : Catalog.Ordered comp hi := by
    have := h.rooted.ordered
    rw [hc] at this
    exact (Sorted.append_iff.mp this).2.1
  have hlive : liveIn dir c = liveIn dir hi := by
    rw [hc, liveIn_append, liveIn_eq_nil fun x hx hp => absurd hp (hfront x hx).ne,
      nil_append]
  have hcome : toCome f 2 (liveIn dir hi) = (liveIn dir c).drop k := by
    rw [toCome, if_pos hname, hlive, hpos, Nat.add_sub_cancel]
  have hloop := iterateLoop_paged allocFails room 2 (f := f) (l := hi) hord hge fun hne =>
    absurd hname hne
  rw [hcome] at hloop
  rw [vdfs4Iterate, dirEmitDots_of_le room (by omega)]
  simp only [hname, hfirst]
  cases hi with
  | nil =>
    rw [hlive]
    simp only [liveIn, filter_nil, drop_nil]
    exact Paged.nil rfl (by rw [← hname])
  | cons r rest => exact hloop

/-- A call with a name resumes at it. -/
theorem iterate_resumed (h : Listable comp c dir) (allocFails : Bool) (room : Option Nat)
    {f : DirFile} {k : Nat} (hpos : 2 ≤ f.pos) (hk : (liveIn dir c)[k]? = some e)
    (hname : f.privateData = some e.1.name) :
    Paged ((liveIn dir c).drop (if HiddenByIlink comp c dir e then k + 1 else k)) allocFails room f
      (vdfs4Iterate comp c dir allocFails room f) := by
  obtain ⟨x, rest, hfind, hord, hge, hend, hlive⟩ := h.resume hk
  rw [vdfs4Iterate, dirEmitDots_of_le room hpos]
  simp only [hname, hfind, ← hlive]
  have hcome : toCome f 2 (liveIn dir (x :: rest)) = liveIn dir (x :: rest) :=
    toCome_eq_self (by simp [hname]) _
  rw [← hcome]
  exact iterateLoop_paged allocFails room 2 hord hge fun _ => hend

end Listable

/-! ### Successive calls -/

/-- What the dots do to a call that begins with them. -/
theorem iterate_dots (comp : Comparison) (c : Catalog) (dir : Nat) (allocFails : Bool)
    (room : Option Nat) {f : DirFile} (hpos : f.pos < 2) :
    (∃ pos < 2, room ≠ none ∧
        vdfs4Iterate comp c dir allocFails room f = ⟨{ f with pos := pos }, [], none⟩) ∨
      ∃ room', (room = none → room' = none) ∧
        vdfs4Iterate comp c dir allocFails room f =
          vdfs4Iterate comp c dir allocFails room' { f with pos := 2 } := by
  obtain ⟨pos, name⟩ := f
  have hcases : pos = 0 ∨ pos = 1 := by
    simp only at hpos
    omega
  rcases hcases with rfl | rfl
  · rcases room with - | - | - | n
    · exact .inr ⟨none, fun _ => rfl, rfl⟩
    · exact .inl ⟨0, by omega, by simp, rfl⟩
    · exact .inl ⟨1, by omega, by simp, rfl⟩
    · exact .inr ⟨some n, by simp, rfl⟩
  · rcases room with - | - | n
    · exact .inr ⟨none, fun _ => rfl, rfl⟩
    · exact .inl ⟨1, by omega, by simp, rfl⟩
    · exact .inr ⟨some n, by simp, rfl⟩

/-- The open directory after `k` of the entries `D` were emitted. -/
structure ListedTo (D : Catalog) (k : Nat) (f : DirFile) : Prop where
  pos_eq : f.pos = k + 2 ∨ f.pos < 2 ∧ k = 0 ∧ f.privateData = none
  name_eq : ∀ n, f.privateData = some n → ∃ e, D[k]? = some e ∧ n = e.1.name

variable {k : Nat} {f : DirFile}

section

variable (h : Listable comp c dir) (hvis : ∀ e ∈ liveIn dir c, ¬ HiddenByIlink comp c dir e)

include h hvis

/-- **One call** emits the next entries, and remembers where it was refused. -/
theorem Listable.call (allocFails : Bool) (room : Option Nat) (hf : ListedTo (liveIn dir c) k f) :
    ∃ k', (vdfs4Iterate comp c dir allocFails room f).emitted ++ (liveIn dir c).drop k' =
        (liveIn dir c).drop k ∧
      ListedTo (liveIn dir c) k' (vdfs4Iterate comp c dir allocFails room f).file ∧
      (room = none → (liveIn dir c).drop k' = []) := by
  -- a call that does not begin with the dots
  have hmain : ∀ room {f}, ListedTo (liveIn dir c) k f → f.pos = k + 2 →
      ∃ k', (vdfs4Iterate comp c dir allocFails room f).emitted ++ (liveIn dir c).drop k' =
          (liveIn dir c).drop k ∧
        ListedTo (liveIn dir c) k' (vdfs4Iterate comp c dir allocFails room f).file ∧
        (room = none → (liveIn dir c).drop k' = []) := by
    intro room f hf hpos
    have hpaged : Paged ((liveIn dir c).drop k) allocFails room f
        (vdfs4Iterate comp c dir allocFails room f) := by
      cases hname : f.privateData with
      | none => exact h.iterate_counted allocFails room hpos hname
      | some n =>
        obtain ⟨e, he, rfl⟩ := hf.name_eq n hname
        have := h.iterate_resumed allocFails room (by omega) he hname
        rwa [if_neg (hvis e (mem_of_getElem? he))] at this
    by_cases hroom : ∀ n, room = some n → ((liveIn dir c).drop k).length ≤ n
    · -- everything is emitted
      obtain ⟨hem, hfile⟩ := hpaged.whole hroom
      have hend : (liveIn dir c).drop (k + ((liveIn dir c).drop k).length) = [] := by
        rw [← drop_drop, drop_length]
      refine ⟨k + ((liveIn dir c).drop k).length, by rw [hem, hend, append_nil], ⟨.inl ?_, ?_⟩,
        fun _ => hend⟩
      · rw [hfile, hpos]
        simp only
        omega
      · intro n hn
        rw [hfile] at hn
        cases hn
    · -- the call is refused
      obtain ⟨n, rfl, hn⟩ : ∃ n, room = some n ∧ n < ((liveIn dir c).drop k).length := by
        simpa only [not_forall, not_le, exists_prop] using hroom
      obtain ⟨e, he⟩ : ∃ e, ((liveIn dir c).drop k)[n]? = some e :=
        ⟨_, getElem?_eq_getElem hn⟩
      obtain ⟨hem, hfile⟩ := hpaged.refused n rfl e he
      refine ⟨k + n, ?_, ⟨.inl ?_, ?_⟩, by simp⟩
      · rw [hem, ← drop_drop, take_append_drop]
      · rw [hfile, hpos]
        simp only
        omega
      · intro m hm
        rw [hfile] at hm
        split at hm
        · cases hm
        · exact ⟨e, by rw [← getElem?_drop]; exact he, (Option.some.inj hm).symm⟩
  rcases hf.pos_eq with hpos | ⟨hpos, rfl, hnone⟩
  · exact hmain room hf hpos
  rcases iterate_dots comp c dir allocFails room hpos with
    ⟨pos, hlt, hroom, heq⟩ | ⟨room', hroom, heq⟩
  · refine ⟨0, by rw [heq]; rfl, ?_, fun h => absurd h hroom⟩
    rw [heq]
    exact ⟨.inr ⟨hlt, rfl, hnone⟩, fun n hn => by cases hnone.symm.trans hn⟩
  · obtain ⟨k', h1, h2, h3⟩ := hmain room' (f := { f with pos := 2 })
      ⟨.inl rfl, fun n hn => by cases hnone.symm.trans hn⟩ rfl
    rw [heq]
    exact ⟨k', h1, h2, fun h => h3 (hroom h)⟩

/-- **Every listing goes on with the entries not yet emitted.** -/
theorem Listable.listing_eq (calls : List (Nat × Bool)) (hf : ListedTo (liveIn dir c) k f) :
    listing comp c dir calls f = (liveIn dir c).drop k := by
  induction calls generalizing k f with
  | nil =>
    obtain ⟨k', h1, -, h3⟩ := h.call hvis false none hf
    rw [listing, ← h1, h3 rfl, append_nil]
  | cons call calls ih =>
    obtain ⟨k', h1, h2, -⟩ := h.call hvis call.2 (some call.1) hf
    rw [listing, ih h2, h1]

end

/-- **An entry that the back link hides is missed** when the call before was refused at it. -/
theorem Listable.listing_misses (h : Listable comp c dir) (he : (liveIn dir c)[k]? = some e)
    (hhid : HiddenByIlink comp c dir e) :
    listing comp c dir [(k + 2, false)] .opened =
      (liveIn dir c).take k ++ (liveIn dir c).drop (k + 1) := by
  have hdots : vdfs4Iterate comp c dir false (some (k + 2)) .opened =
      vdfs4Iterate comp c dir false (some k) ⟨2, none⟩ := rfl
  have hfirst := h.iterate_counted false (some k) (f := ⟨2, none⟩) (k := 0) rfl rfl
  rw [drop_zero] at hfirst
  obtain ⟨hem, hfile⟩ := hfirst.refused k rfl e he
  have hsecond := h.iterate_resumed false none (f := ⟨2 + k, some e.1.name⟩) (by simp) he rfl
  rw [if_pos hhid] at hsecond
  rw [listing, listing, hdots, hem, hfile]
  simp only [Bool.false_eq_true, and_false, if_false]
  rw [(hsecond.whole fun n hn => by cases hn).1]

/-- **Directory listing is complete if and only if** no live entry has the back link of the
directory as the last record of its name. -/
theorem listing_complete_iff (h : Listable comp c dir) :
    (∀ calls, listing comp c dir calls .opened = liveIn dir c) ↔
      ∀ e ∈ c, e.1.parentId = dir → e.2.Live → ¬ HiddenByIlink comp c dir e := by
  constructor
  · intro hall e hec hp hlive hhid
    obtain ⟨k, hk, heq⟩ := getElem_of_mem (mem_liveIn.mpr ⟨hec, hp, hlive⟩)
    have hmiss := h.listing_misses (List.getElem?_eq_some_iff.mpr ⟨hk, heq⟩) hhid
    rw [hall] at hmiss
    have hlen := congrArg length hmiss
    rw [length_append, length_take, length_drop] at hlen
    omega
  · intro hvis calls
    have hvis' : ∀ e ∈ liveIn dir c, ¬ HiddenByIlink comp c dir e := fun e he =>
      hvis e (mem_liveIn.mp he).1 (mem_liveIn.mp he).2.1 (mem_liveIn.mp he).2.2
    exact h.listing_eq hvis' calls ⟨.inr ⟨by decide, rfl, rfl⟩, fun n hn => by cases hn⟩

/-- The directory 5, named `b` in the root, with the files `a` and `c`. -/
def listingSample : Catalog :=
  let a := nameA
  let b := nameB
  let c := nameC
  [(rootKey, .blank .folder), (⟨1, b, 5⟩, .blank .folder), (⟨5, a, 6⟩, .blank .file),
    (⟨5, b, 1⟩, .blank .ilink), (⟨5, c, 7⟩, .blank .file), (⟨6, a, 5⟩, .blank .ilink),
    (⟨7, c, 5⟩, .blank .ilink)]

theorem listing_complete_sample :
    (liveIn 5 listingSample).length = 2 ∧
      ∀ calls, listing .caseSensitive listingSample 5 calls .opened = liveIn 5 listingSample :=
  ⟨by decide +kernel, (listing_complete_iff (by decide +kernel)).mpr (by decide +kernel)⟩

/-- **An entry is skipped**: the directory 3, named `a` in the directory 10, has a file `a`. Two
dots and no entry fit into the first call, and the second one resumes at the back link. -/
theorem listing_skips_entry : Listable .caseSensitive lookupSample 3 ∧
    (liveIn 3 lookupSample).length = 1 ∧
    listing .caseSensitive lookupSample 3 [(2, false)] .opened = [] := by
  refine ⟨by decide +kernel, by decide +kernel, by decide +kernel⟩

end Vdfs4
