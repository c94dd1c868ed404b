import Vdfs4.Compress.FileBased

/-!
# What the signature of a file binds

The signature covers the hashes, and each hash covers the **stored bytes** of a chunk. The entry
of the chunk table is covered by neither, and its flag decides whether the stored bytes are
unpacked or delivered as they are; of an uncompressed chunk whole pages are delivered, from the
page in which the range starts. So two files with the same hashes and the same signature can
still deliver different bytes.

* `Delivered`, `CompFile.delivers` — what a page of a chunk shows, by the entry of the chunk.
* `PageBound` — what the entries must have in common: the flag, the sizes, and of an uncompressed
  chunk the visible bytes **outside the hashed range**.
* `stored_eq`, `comprType_eq` — what the equal hashes do bind: the stored bytes and how they are
  unpacked.
* `chunk_bound_iff` — exactly when the delivered bytes agree.
-/

namespace Vdfs4

open ByteMemory CompFileDescr List
open SnapshotInfo (pageSize)

/-! ### What a page shows -/

/-- What is delivered for a page: no bytes at all, the bytes of the stored page, or `visible`
bytes of the chunk unpacked to `pagesCount` pages. -/
inductive Delivered where
  | nothing
  | raw (l : List UInt8)
  | unpacked (pagesCount visible : Nat)
deriving DecidableEq, Repr

/-- Two pages show the same, whatever the stored bytes unpack to. -/
def Delivered.Agree : Delivered → Delivered → Prop
  | nothing, _ => True
  | _, nothing => True
  | raw x, raw y => x = y
  | unpacked p v, unpacked p' v' => p = p' ∧ v = v'
  | raw _, unpacked _ _ => False
  | unpacked _ _, raw _ => False

/-- A reader gets `x` of page `k`, where `unpack` unpacks the stored bytes to a size. -/
def Delivered.Shows (unpack : Nat → Except Errno (List UInt8)) (k : Nat) (x : List UInt8) :
    Delivered → Prop
  | nothing => False
  | raw l => x = l
  | unpacked pagesCount visible =>
    ∃ out, unpack (pagesCount * pageSize) = .ok out ∧
      x = ((out.drop (k * pageSize)).take pageSize).take visible

/-- Page `k` of a chunk is behind the end of the file, or one of the pages of its entry. -/
def Fbc.Readable (fbc : Fbc) (c : CompExtentInfo) (chunkIdx k : Nat) : Prop :=
  ¬(fbc.logChunkSize < pageShift ∨ 31 ≤ fbc.logChunkSize) ∧
    (fbc.visible chunkIdx k = 0 ∨ k < if c.uncompr then c.blocksN else chunkPageCount fbc chunkIdx)

instance (fbc : Fbc) (c : CompExtentInfo) (chunkIdx k : Nat) :
    Decidable (fbc.Readable c chunkIdx k) := inferInstanceAs (Decidable (_ ∧ _))

/-- What page `k` of a chunk shows, by the entry of the chunk. -/
def CompFile.delivers (f : CompFile) (fbc : Fbc) (c : CompExtentInfo) (chunkIdx k : Nat) :
    Delivered :=
  if fbc.Readable c chunkIdx k then
    if c.uncompr ∨ fbc.visible chunkIdx k = 0 then
      .raw ((f.chunkSource fbc c).window (k * pageSize) (fbc.visible chunkIdx k))
    else .unpacked (chunkPageCount fbc chunkIdx) (fbc.visible chunkIdx k)
  else .nothing

/-- The hash covers a byte of an uncompressed chunk in both files, at the same place. -/
def HashedAlike (cA cB : CompExtentInfo) (p : Nat) : Prop :=
  cA.offset = cB.offset ∧ cA.offset ≤ p ∧ p < cA.offset + cA.lenBytes

/-- What the entries of two files have in common for a page that both can read: as many visible
bytes, the flag, as many unpacked pages, and of uncompressed chunks the visible bytes outside the
hashed range; of ranges that start at different places in a page, all visible bytes. -/
structure PageBound (A B : CompFile) (a b : Fbc) (cA cB : CompExtentInfo) (chunkIdx k : Nat) :
    Prop where
  visible : a.visible chunkIdx k = b.visible chunkIdx k
  flag : 0 < a.visible chunkIdx k → cA.uncompr = cB.uncompr
  pages : 0 < a.visible chunkIdx k → cA.uncompr = false →
    chunkPageCount a chunkIdx = chunkPageCount b chunkIdx
  bytes : cA.uncompr = true → ∀ p, k * pageSize ≤ p → p < k * pageSize + a.visible chunkIdx k →
    ¬HashedAlike cA cB p → A.chunkSource a cA p = B.chunkSource b cB p

/-- The functions of a volume with other unpacking functions. -/
def CompEnv.withDecomp (env : CompEnv)
    (dec : ComprType → List UInt8 → Nat → Except Errno (List UInt8)) : CompEnv :=
  { env with decompFn := dec }

/-- The two files deliver the same bytes for the chunk, **whatever** deterministic functions unpack
it. -/
def BindsChunk (env : CompEnv) (A B : CompFile) (a b : Fbc) (chunkIdx : Nat) : Prop :=
  ∀ (dec : ComprType → List UInt8 → Nat → Except Errno (List UInt8)) (k : Nat) (x y : List UInt8),
    readpageTuned (env.withDecomp dec) A a chunkIdx k = .ok x →
    readpageTuned (env.withDecomp dec) B b chunkIdx k = .ok y → x = y

section Read

variable {env : CompEnv} {f : CompFile} {fbc : Fbc} {c : CompExtentInfo} {i k : Nat}
  {dec : ComprType → List UInt8 → Nat → Except Errno (List UInt8)}
  {unpack : Nat → Except Errno (List UInt8)} {ct : ComprType}

/-- The two ways a chunk that passed the comparison of its hash is delivered. -/
theorem authDecompressSw_eq (hi : i < fbc.compExtentsN)
    (hhash : checkHashChunk env f fbc c i = .ok ()) :
    authDecompressSw (env.withDecomp dec) f fbc c i k =
      if c.uncompr then
        if c.blocksN ≤ k then .error (.errno .eio)
        else .ok ((f.chunkSource fbc c).window (k * pageSize) pageSize)
      else match dec fbc.comprType (f.stored fbc c) (chunkPageCount fbc i * pageSize) with
        | .error e => .error (.errno e)
        | .ok out =>
          if chunkPageCount fbc i ≤ k then .error (.errno .eio)
          else .ok ((out.drop (k * pageSize)).take pageSize) := by
  have hhash' : checkHashChunk (env.withDecomp dec) f fbc c i = .ok () := hhash
  rw [authDecompressSw, if_neg (Nat.not_le.mpr hi), hhash']
  apply if_congr Iff.rfl rfl
  rw [show (env.withDecomp dec).decompFn = dec from rfl]
  cases dec fbc.comprType (f.stored fbc c) (chunkPageCount fbc i * pageSize) <;> rfl

/-- **A page of a chunk** that passed the comparison of its hash. -/
theorem readpageTuned_eq_ok_iff (hi : i < fbc.compExtentsN) (hread : readChunk f fbc i = .ok c)
    (hhash : checkHashChunk env f fbc c i = .ok ()) (x : List UInt8) :
    readpageTuned (env.withDecomp dec) f fbc i k = .ok x ↔
      (f.delivers fbc c i k).Shows (dec fbc.comprType (f.stored fbc c)) k x := by
  simp only [readpageTuned, CompFile.delivers, hread, authDecompressSw_eq hi hhash, bind,
    Except.bind, pure, Except.pure]
  by_cases hlog : fbc.logChunkSize < pageShift ∨ 31 ≤ fbc.logChunkSize
  · rw [if_pos hlog, if_neg fun hread => hread.1 hlog]
    exact iff_of_false (fun h => by cases h) id
  rw [if_neg hlog]
  by_cases hvis : fbc.visible i k = 0
  · rw [if_pos hvis, if_pos ⟨hlog, .inl hvis⟩, if_pos (.inr hvis), hvis, Except.ok.injEq]
    exact eq_comm
  rw [if_neg hvis]
  have htake : ((f.chunkSource fbc c).window (k * pageSize) pageSize).take (fbc.visible i k) =
      (f.chunkSource fbc c).window (k * pageSize) (fbc.visible i k) := by
    have hle : fbc.visible i k ≤ pageSize := Nat.min_le_left _ _
    rw [window, window, ← map_take, take_range, Nat.min_eq_left hle]
  by_cases hu : c.uncompr
  · rw [if_pos hu]
    by_cases hk : c.blocksN ≤ k
    · rw [if_pos hk, if_neg fun hread => absurd (hread.2.resolve_left hvis)
        (by rw [if_pos hu]; omega)]
      exact iff_of_false (fun h => by cases h) id
    · rw [if_neg hk, if_pos ⟨hlog, .inr (by rw [if_pos hu]; omega)⟩, if_pos (.inl hu)]
      simp only [htake]
      exact (Except.ok.injEq _ _).to_iff.trans eq_comm
  · rw [if_neg hu]
    by_cases hk : chunkPageCount fbc i ≤ k
    · rw [if_neg fun hread => absurd (hread.2.resolve_left hvis) (by rw [if_neg hu]; omega)]
      simp only [if_pos hk]
      -- unpacked or not, the page is not among the unpacked ones
      cases dec fbc.comprType (f.stored fbc c) (chunkPageCount fbc i * pageSize) <;>
        exact iff_of_false (fun h => by cases h) id
    · rw [if_pos ⟨hlog, .inr (by rw [if_neg hu]; omega)⟩, if_neg (by simp [hu, hvis])]
      simp only [if_neg hk, Delivered.Shows]
      cases dec fbc.comprType (f.stored fbc c) (chunkPageCount fbc i * pageSize) with
      | error e => simp
      | ok out => simp [eq_comm]

end Read

/-! ### What the hashes bind -/

section Bound

variable {env : CompEnv} {A B : CompFile} {a b : Fbc} {t t' : HashType}

/-- The length of a hash tells the algorithm. -/
theorem HashType.eq_of_hashLen_eq (h : t.hashLen = t'.hashLen) : t = t' := by
  cases t <;> cases t' <;> first | rfl | exact absurd h (by decide)

/-- Files with as many hash bytes for as many chunks use one algorithm. -/
theorem hashType_eq (hn : a.compExtentsN = b.compExtentsN) (hh : A.hashes a t = B.hashes b t') :
    t = t' := by
  have hlen := congrArg length hh
  simp only [CompFile.hashes, length_window, hn] at hlen
  exact HashType.eq_of_hashLen_eq (Nat.eq_of_mul_eq_mul_left (Nat.succ_pos _) hlen)

/-- The hash that a comparison passes is part of the hashes. -/
theorem getAndCmpHash_eq_ok {f : CompFile} {fbc : Fbc} {i : Nat} {l : List UInt8}
    (h : getAndCmpHash f fbc t i l = .ok ()) (hi : i ≤ fbc.compExtentsN) :
    l = ((f.hashes fbc t).drop (t.hashLen * i)).take t.hashLen := by
  have hfit : t.hashLen * i + t.hashLen ≤ (fbc.compExtentsN + 1) * t.hashLen := by
    rw [Nat.mul_comm (fbc.compExtentsN + 1), ← Nat.mul_succ]
    exact Nat.mul_le_mul_left _ (by omega)
  rw [CompFile.hashes, take_drop_window hfit]
  simp only [getAndCmpHash, Failure.bind_eq_ok, Failure.ite_error_eq_ok] at h
  obtain ⟨-, -, hne, -⟩ := h
  exact (not_not.mp hne).symm

/-- Two different inputs of the hash are told apart. -/
def CompEnv.NoCollision (env : CompEnv) (t : HashType) (x y : List UInt8) : Prop :=
  env.hashFn t x = env.hashFn t y → x = y

/-- What an open that succeeds has checked. -/
structure Opened (env : CompEnv) (f : CompFile) (fbc : Fbc) : Prop where
  comprType : getComprtypeByMagic fbc.descr.magicType = some fbc.comprType
  fits : fbc.descr.Fits
  layout : fbc.descr.layoutVersion = comprLayoutVer06 ∨ fbc.descr.layoutVersion = comprLayoutVer05
  hashMeta : ∀ t, fbc.hashType = some t → f.volumeAuth = true →
    checkHashMeta env f fbc t = .ok ()

/-- The descriptor that is found has the fields of the stored one, with the sign type of the old
layout put in. -/
theorem getFileDescriptor_spec {f : CompFile} {d : CompFileDescr}
    (h : getFileDescriptor env f = .ok (d, ct)) :
    d.Fits ∧ fileDescriptorVerify d = .ok ct := by
  simp only [getFileDescriptor, Failure.bind_eq_ok, Failure.ite_error_eq_ok] at h
  obtain ⟨-, -, -, -, t, hverify, hret⟩ := h
  obtain ⟨rfl, rfl⟩ := Prod.mk.inj (Except.ok.inj hret)
  have hfits := fits_readAt f.bytes (f.compSize - sizeofCompFileDescr)
  refine ⟨?_, hverify⟩
  split
  · exact hfits.withSignType (by decide)
  · exact hfits

/-- What the check of a descriptor says. -/
theorem fileDescriptorVerify_eq_ok {d : CompFileDescr} (h : fileDescriptorVerify d = .ok ct) :
    (d.layoutVersion = comprLayoutVer06 ∨ d.layoutVersion = comprLayoutVer05) ∧
      getComprtypeByMagic d.magicType = some ct := by
  simp only [fileDescriptorVerify] at h
  split at h
  · cases h
  next hlayout =>
  split at h
  · cases h
  · split at h
    · cases h
    · next hmagic =>
      rw [Except.ok.inj h] at hmagic
      exact ⟨by tauto, hmagic⟩

/-- The hash of the descriptor is among the checks of an authenticated file. -/
theorem checkHashMeta_of_checkAuthentication {f : CompFile} {fbc : Fbc} {u : Unit}
    (h : checkAuthentication env f fbc = .ok u) (ht : fbc.hashType = some t)
    (hvolume : f.volumeAuth = true) : checkHashMeta env f fbc t = .ok () := by
  simp only [checkAuthentication, ht, if_pos hvolume, Failure.bind_eq_ok] at h
  obtain ⟨_, _, hmeta⟩ := h
  exact hmeta

theorem opened_of_initFileDecompression {f : CompFile} {fbc : Fbc}
    (h : initFileDecompression env f = .ok fbc) : Opened env f fbc := by
  simp only [initFileDecompression, Failure.bind_eq_ok] at h
  obtain ⟨⟨d, ct⟩, hdescr, h⟩ := h
  obtain ⟨hfits, hverify⟩ := getFileDescriptor_spec hdescr
  obtain ⟨hlayout, hct⟩ := fileDescriptorVerify_eq_ok hverify
  split at h
  · cases h
  simp only [Failure.bind_eq_ok, Failure.ite_error_eq_ok] at h
  obtain ⟨-, -, -, -, -, _, hauth, hret⟩ := h
  obtain rfl := Except.ok.inj hret
  refine ⟨hct, hfits, hlayout, ?_⟩
  intro t ht hvolume
  exact checkHashMeta_of_checkAuthentication hauth ht hvolume

/-- The hashed bytes of two descriptors are equal only if these agree on how the chunks are
unpacked. -/
theorem magicType_eq_of_hashed_eq {d d' : CompFileDescr} (hfits : d.Fits) (hfits' : d'.Fits)
    (h : d.hashed = d'.hashed) : d.magicType = d'.magicType := by
  have hsub : ∀ e : CompFileDescr, e.Fits → ∀ g ∈ e.magicToCrc, g.2 < 256 ^ g.1 := by
    intro e he g hg
    exact he g (by simp [fields, hg])
  -- the two layouts hash different numbers of bytes
  have hlen := congrArg length h
  simp only [hashed] at h hlen
  split at h <;> split at h
  · have hfields : { d with crc := 0 }.fields = { d' with crc := 0 }.fields :=
      packLE_inj rfl (hfits.withCrc (by decide)) (hfits'.withCrc (by decide)) h
    simp only [fields, magicToCrc, cons_append, nil_append,
      cons.injEq, Prod.mk.injEq, true_and] at hfields
    exact hfields.2.2.2.1
  · simp [magicToCrc, sizeofCompFileDescr, *] at hlen
  · simp [magicToCrc, sizeofCompFileDescr, *] at hlen
  · have hfields : d.magicToCrc = d'.magicToCrc :=
      packLE_inj rfl (hsub d hfits) (hsub d' hfits') h
    simp only [magicToCrc, cons.injEq, Prod.mk.injEq, true_and] at hfields
    exact hfields.2.1

end Bound

/-! ### Two files with one signature -/

/-- Two files with the **same number of chunks, hashes and signature** that both open, on an
authenticated volume. -/
structure SignedAlike (env : CompEnv) (A B : CompFile) (a b : Fbc) (t t' : HashType) : Prop where
  opens : initFileDecompression env A = .ok a ∧ initFileDecompression env B = .ok b
  volumeAuth : A.volumeAuth = true ∧ B.volumeAuth = true
  hashType : a.hashType = some t ∧ b.hashType = some t'
  compExtentsN : a.compExtentsN = b.compExtentsN
  hashes : A.hashes a t = B.hashes b t'
  signature : A.signature a t = B.signature b t'

/-- A chunk is read from a file and its hash compares equal. -/
def PassesHash (env : CompEnv) (f : CompFile) (fbc : Fbc) (chunkIdx : Nat) (c : CompExtentInfo) :
    Prop :=
  readChunk f fbc chunkIdx = .ok c ∧ checkHashChunk env f fbc c chunkIdx = .ok ()

namespace SignedAlike

variable {env : CompEnv} {A B : CompFile} {a b : Fbc} {t t' : HashType} {i : Nat}
  {cA cB : CompExtentInfo}

/-- The **stored bytes** are bound. -/
theorem stored_eq (h : SignedAlike env A B a b t t') (hi : i < a.compExtentsN)
    (hA : PassesHash env A a i cA) (hB : PassesHash env B b i cB)
    (hfree : env.NoCollision t (A.stored a cA) (B.stored b cB)) :
    A.stored a cA = B.stored b cB := by
  obtain rfl := hashType_eq h.compExtentsN h.hashes
  have hcmpA := hA.2
  have hcmpB := hB.2
  simp only [checkHashChunk, h.hashType.1, if_pos h.volumeAuth.1] at hcmpA
  simp only [checkHashChunk, h.hashType.2, if_pos h.volumeAuth.2] at hcmpB
  apply hfree
  rw [getAndCmpHash_eq_ok hcmpA hi.le, getAndCmpHash_eq_ok hcmpB (h.compExtentsN ▸ hi.le), h.hashes]

/-- How they are **unpacked** is bound. -/
theorem comprType_eq (h : SignedAlike env A B a b t t')
    (hfree : env.NoCollision t a.descr.hashed b.descr.hashed) : a.comprType = b.comprType := by
  obtain rfl := hashType_eq h.compExtentsN h.hashes
  have hopenA := opened_of_initFileDecompression h.opens.1
  have hopenB := opened_of_initFileDecompression h.opens.2
  have hcmpA := hopenA.hashMeta t h.hashType.1 h.volumeAuth.1
  have hcmpB := hopenB.hashMeta t h.hashType.2 h.volumeAuth.2
  have hhashed : a.descr.hashed = b.descr.hashed := by
    apply hfree
    rw [getAndCmpHash_eq_ok hcmpA le_rfl, getAndCmpHash_eq_ok hcmpB le_rfl, h.hashes,
      h.compExtentsN]
  have hmagic := magicType_eq_of_hashed_eq hopenA.fits hopenB.fits hhashed
  have hcompr := hopenB.comprType
  rw [← hmagic, hopenA.comprType] at hcompr
  exact Option.some.inj hcompr

end SignedAlike

/-- Pages that agree show a reader the same bytes. -/
theorem Delivered.Agree.eq_of_shows {d d' : Delivered} (h : d.Agree d') {k : Nat} {x y : List UInt8}
    (hx : d.Shows unpack k x) (hy : d'.Shows unpack k y) : x = y := by
  cases d with
  | nothing => exact hx.elim
  | raw l =>
    cases d' with
    | nothing => exact hy.elim
    | raw l' => exact hx.trans (h.trans hy.symm)
    | unpacked p v => exact h.elim
  | unpacked p v =>
    cases d' with
    | nothing => exact hy.elim
    | raw l => exact h.elim
    | unpacked p' v' =>
      obtain ⟨rfl, rfl⟩ := h
      obtain ⟨out, hout, rfl⟩ := hx
      obtain ⟨out', hout', rfl⟩ := hy
      rw [Except.ok.inj (hout.symm.trans hout')]

/-- A page that is shown unpacked lies in the unpacked pages and shows at least one byte. -/
def Delivered.Inside (k : Nat) : Delivered → Prop
  | unpacked pagesCount visible => k < pagesCount ∧ 0 < visible ∧ visible ≤ pageSize
  | _ => True

theorem CompFile.inside_delivers (f : CompFile) (fbc : Fbc) (c : CompExtentInfo) (i k : Nat) :
    (f.delivers fbc c i k).Inside k := by
  have hle : fbc.visible i k ≤ pageSize := Nat.min_le_left _ _
  unfold delivers
  split_ifs with hread hraw
  · trivial
  · obtain ⟨hu, hvis⟩ := not_or.mp hraw
    have hk := hread.2.resolve_left hvis
    rw [if_neg hu] at hk
    exact ⟨hk, by omega, hle⟩
  · trivial

/-- What a page shows of a chunk that unpacks to one repeated byte. -/
theorem Delivered.shows_replicate {p v k : Nat} (h : (unpacked p v).Inside k) {u : UInt8}
    (hunpack : unpack (p * pageSize) = .ok (replicate (p * pageSize) u)) :
    (unpacked p v).Shows unpack k (replicate v u) := by
  obtain ⟨hk, -, hv⟩ := h
  refine ⟨_, hunpack, ?_⟩
  have hroom : k * pageSize + pageSize ≤ p * pageSize := by
    rw [← Nat.succ_mul]
    exact Nat.mul_le_mul_right _ hk
  rw [drop_replicate, take_replicate, take_replicate]
  congr 1
  omega

/-- Pages that show a reader the same bytes **whatever the stored bytes unpack to** agree. -/
theorem Delivered.agree_of_forall {d d' : Delivered} {k : Nat} (hd : d.Inside k) (hd' : d'.Inside k)
    (h : ∀ (unpack : Nat → Except Errno (List UInt8)) (x y : List UInt8),
      d.Shows unpack k x → d'.Shows unpack k y → x = y) : d.Agree d' := by
  -- raw bytes against a chunk that unpacks to a byte they do not start with
  have hmixed : ∀ {l : List UInt8} {p v : Nat}, (unpacked p v).Inside k →
      (∀ (unpack : Nat → Except Errno (List UInt8)) (y : List UInt8),
        (unpacked p v).Shows unpack k y → l = y) → False := by
    intro l p v hin hall
    have hzero := hall (fun n => .ok (replicate n 0)) _ (shows_replicate hin rfl)
    have hone := hall (fun n => .ok (replicate n 1)) _ (shows_replicate hin rfl)
    have hne : (0 : UInt8) = 1 := by
      apply replicate_right_injective hin.2.1.ne'
      exact hzero.symm.trans hone
    exact absurd hne (by decide)
  cases d with
  | nothing => trivial
  | raw l =>
    cases d' with
    | nothing => trivial
    | raw l' => exact h (fun _ => .ok []) l l' rfl rfl
    | unpacked p v => exact hmixed hd' fun unpack y hy => h unpack l y rfl hy
  | unpacked p v =>
    cases d' with
    | nothing => trivial
    | raw l => exact hmixed hd fun unpack y hy => (h unpack y l hy rfl).symm
    | unpacked p' v' =>
      -- another number of pages is another request to the unpacking function
      by_cases hp : p = p'
      · subst hp
        have hlen := congrArg length
          (h (fun n => .ok (replicate n 0)) _ _ (shows_replicate hd rfl)
            (shows_replicate hd' rfl))
        rw [length_replicate, length_replicate] at hlen
        exact ⟨rfl, hlen⟩
      · exfalso
        have hsize : p' * pageSize ≠ p * pageSize := fun he =>
          hp (Nat.eq_of_mul_eq_mul_right (by decide) he).symm
        have heq := h (fun n => .ok (replicate n (if n = p * pageSize then 0 else 1))) _ _
          (shows_replicate hd (by rw [if_pos rfl])) (shows_replicate hd' (by rw [if_neg hsize]))
        have hhead := congrArg head? heq
        rw [head?_replicate, head?_replicate, if_neg hd.2.1.ne', if_neg hd'.2.1.ne'] at hhead
        exact absurd hhead (by decide)

/-- Equal stored bytes that start at the same place agree inside the hashed range. -/
theorem chunkSource_eq_of_hashedAlike {A B : CompFile} {a b : Fbc} {cA cB : CompExtentInfo}
    {p : Nat} (hstored : A.stored a cA = B.stored b cB) (hp : HashedAlike cA cB p) :
    A.chunkSource a cA p = B.chunkSource b cB p := by
  obtain ⟨hoff, hlo, hhi⟩ := hp
  have hlen := congrArg length hstored
  simp only [CompFile.stored, length_window] at hlen
  rw [CompFile.stored, CompFile.stored, ← hoff, ← hlen, window_eq_iff] at hstored
  have := hstored (p - cA.offset) (by omega)
  rwa [Nat.add_sub_cancel' hlo] at this

/-- With equal stored bytes, pages agree exactly if the entries bind them. -/
theorem agree_iff_pageBound {A B : CompFile} {a b : Fbc} {cA cB : CompExtentInfo} {i k : Nat}
    (hstored : A.stored a cA = B.stored b cB) :
    (A.delivers a cA i k).Agree (B.delivers b cB i k) ↔
      (a.Readable cA i k → b.Readable cB i k → PageBound A B a b cA cB i k) := by
  unfold CompFile.delivers
  by_cases hA : a.Readable cA i k
  swap
  · rw [if_neg hA]
    exact ⟨fun _ h => absurd h hA, fun _ => trivial⟩
  by_cases hB : b.Readable cB i k
  swap
  · rw [if_neg hB]
    refine ⟨fun _ _ h => absurd h hB, fun _ => ?_⟩
    split_ifs <;> trivial
  simp only [hA, hB, if_true, true_imp_iff]
  by_cases hrawA : cA.uncompr ∨ a.visible i k = 0 <;> by_cases hrawB : cB.uncompr ∨
    b.visible i k = 0
  · -- two pages as they are stored
    rw [if_pos hrawA, if_pos hrawB]
    constructor
    · intro heq
      simp only [Delivered.Agree] at heq
      have hvis : a.visible i k = b.visible i k := by simpa using congrArg length heq
      rw [← hvis, window_eq_iff] at heq
      refine ⟨hvis, fun hpos => ?_, fun hpos hno => ?_, fun _ p hlo hhi _ => ?_⟩
      · rw [hrawA.resolve_right (by omega), hrawB.resolve_right (by omega)]
      · rw [hrawA.resolve_right (by omega)] at hno
        cases hno
      · have := heq (p - k * pageSize) (by omega)
        rwa [Nat.add_sub_cancel' hlo] at this
    · intro h
      simp only [Delivered.Agree]
      rw [← h.visible, window_eq_iff]
      intro j hj
      by_cases hhash : HashedAlike cA cB (k * pageSize + j)
      · exact chunkSource_eq_of_hashedAlike hstored hhash
      · exact h.bytes (hrawA.resolve_right (by omega)) _ (by omega) (by omega) hhash
  · -- only one is unpacked
    rw [if_pos hrawA, if_neg hrawB]
    obtain ⟨huB, hvisB⟩ := not_or.mp hrawB
    refine ⟨False.elim, fun h => ?_⟩
    have hvis := h.visible
    rw [← h.flag (by omega)] at huB
    exact absurd (hrawA.resolve_right (by omega)) huB
  · rw [if_neg hrawA, if_pos hrawB]
    obtain ⟨huA, hvisA⟩ := not_or.mp hrawA
    refine ⟨False.elim, fun h => ?_⟩
    have hvis := h.visible
    rw [h.flag (by omega)] at huA
    exact absurd (hrawB.resolve_right (by omega)) huA
  · rw [if_neg hrawA, if_neg hrawB]
    obtain ⟨huA, hvisA⟩ := not_or.mp hrawA
    obtain ⟨huB, -⟩ := not_or.mp hrawB
    constructor
    · rintro ⟨hpages, hvis⟩
      exact ⟨hvis, fun _ => by simp only [Bool.not_eq_true] at huA huB; rw [huA, huB],
        fun _ _ => hpages, fun hu => absurd hu huA⟩
    · intro h
      exact ⟨h.pages (by omega) (by simpa using huA), h.visible⟩

/-- **Which chunks a signature binds.** Two files with the same hashes and the same signature that
pass every check deliver the same bytes for a chunk, whatever the stored bytes unpack to, exactly
when the entries of the two tables bind every page that both can read: both unpacked, to as many
pages and visible bytes, or both left as stored, with the same visible bytes outside the range that
the hash covers. -/
theorem chunk_bound_iff {env : CompEnv} {A B : CompFile} {a b : Fbc} {t t' : HashType} {i : Nat}
    {cA cB : CompExtentInfo} (h : SignedAlike env A B a b t t') (hi : i < a.compExtentsN)
    (hA : PassesHash env A a i cA) (hB : PassesHash env B b i cB)
    (hstored : env.NoCollision t (A.stored a cA) (B.stored b cB))
    (hdescr : env.NoCollision t a.descr.hashed b.descr.hashed) :
    BindsChunk env A B a b i ↔ ∀ k, a.Readable cA i k → b.Readable cB i k →
      PageBound A B a b cA cB i k := by
  have hsame := h.stored_eq hi hA hB hstored
  have hcompr := h.comprType_eq hdescr
  have hshowA : ∀ dec k x, readpageTuned (env.withDecomp dec) A a i k = .ok x ↔
      (A.delivers a cA i k).Shows (dec b.comprType (B.stored b cB)) k x := by
    intro dec k x
    rw [readpageTuned_eq_ok_iff hi hA.1 hA.2, hsame, hcompr]
  have hshowB : ∀ dec k y, readpageTuned (env.withDecomp dec) B b i k = .ok y ↔
      (B.delivers b cB i k).Shows (dec b.comprType (B.stored b cB)) k y := by
    intro dec k y
    exact readpageTuned_eq_ok_iff (h.compExtentsN ▸ hi) hB.1 hB.2 y
  constructor
  · intro hbinds k
    apply (agree_iff_pageBound hsame).mp
    apply Delivered.agree_of_forall (A.inside_delivers a cA i k) (B.inside_delivers b cB i k)
    intro unpack x y hx hy
    exact hbinds (fun _ _ => unpack) k x y ((hshowA _ k x).mpr hx) ((hshowB _ k y).mpr hy)
  · intro hagree dec k x y hx hy
    exact ((agree_iff_pageBound hsame).mpr (hagree k)).eq_of_shows ((hshowA dec k x).mp hx)
      ((hshowB dec k y).mp hy)

/-! ### A flag that nothing covers -/

/-- A volume whose hash keeps the first bytes of its input. -/
def smallCompEnv : CompEnv where
  allowLegacySign := true
  hashFn t l := (l ++ List.replicate t.hashLen 0).take t.hashLen
  length_hashFn t l := by simp
  checkSignature _ _ _ := true
  crc32 _ := 0
  decompFn _ _ _ := .error .einval

/-- The descriptor of a file of sixteen bytes in one chunk. -/
def smallDescr : CompFileDescr where
  reserved := 0
  signType := 2
  magicStart := 0x49
  magicType := 0x70695a
  extentsNum := 1
  layoutVersion := comprLayoutVer06
  unpackedSize := 16
  crc := 0
  logChunkSize := 12
  pad2 := 0

/-- The stored bytes of its chunk. -/
def smallStored : List UInt8 := (List.range 16).map UInt8.ofNat

/-- The file, with the given flags in the entry of its chunk. -/
def smallCompFile (flags : Nat) : CompFile where
  compSize := 360
  bytes i :=
    ((smallStored ++ CompExtent.toBytes ⟨comprExtMagic, flags, 16, 0⟩ ++ smallStored ++
      smallDescr.hashed.take 16 ++ List.replicate 256 0 ++ smallDescr.toBytes)[i]?).getD 0
  mapped _ := true
  profiled := false
  volumeAuth := true

/-- What its open finds. -/
def smallFbc : Fbc := ⟨smallDescr, .zlib, some .md5, 16⟩

/-- The range its entry names. -/
def smallInfo (flags : Nat) : CompExtentInfo := ⟨flags, 0, 0, 16, 1⟩

/-- With the flag for an encrypted chunk, which the kernel ignores, both files unpack. -/
theorem smallCompFile_bound :
    BindsChunk smallCompEnv (smallCompFile 0) (smallCompFile 2) smallFbc smallFbc 0 := by
  have halike : SignedAlike smallCompEnv (smallCompFile 0) (smallCompFile 2) smallFbc smallFbc
      .md5 .md5 :=
    ⟨by decide +kernel, by decide, by decide, rfl, by decide +kernel, by decide +kernel⟩
  have hpass : PassesHash smallCompEnv (smallCompFile 0) smallFbc 0 (smallInfo 0) :=
    ⟨by decide +kernel, by decide +kernel⟩
  have hpass' : PassesHash smallCompEnv (smallCompFile 2) smallFbc 0 (smallInfo 2) :=
    ⟨by decide +kernel, by decide +kernel⟩
  have hstored : (smallCompFile 0).stored smallFbc (smallInfo 0) =
      (smallCompFile 2).stored smallFbc (smallInfo 2) := by decide +kernel
  apply (chunk_bound_iff halike (by decide) hpass hpass' (fun _ => hstored) (fun _ => rfl)).mpr
  intro k _ _
  exact ⟨rfl, fun _ => rfl, fun _ _ => rfl, nofun⟩

/-- **Flipping one flag.** The two files differ in the flag of an uncompressed chunk only; both
pass every check with the same hashes and the same signature, and deliver different bytes. -/
theorem uncompr_flag_unbound :
    SignedAlike smallCompEnv (smallCompFile 0) (smallCompFile 1) smallFbc smallFbc .md5 .md5 ∧
    PassesHash smallCompEnv (smallCompFile 0) smallFbc 0 (smallInfo 0) ∧
    PassesHash smallCompEnv (smallCompFile 1) smallFbc 0 (smallInfo 1) ∧
    (smallCompFile 0).stored smallFbc (smallInfo 0) =
      (smallCompFile 1).stored smallFbc (smallInfo 1) ∧
    readpageTuned (smallCompEnv.withDecomp fun _ l _ => .ok l.reverse)
    (smallCompFile 0) smallFbc 0 0 =
      .ok smallStored.reverse ∧
    readpageTuned (smallCompEnv.withDecomp fun _ l _ => .ok l.reverse)
    (smallCompFile 1) smallFbc 0 0 =
      .ok smallStored ∧
    smallStored.reverse ≠ smallStored := by
  refine ⟨⟨?_, ?_, ?_, rfl, ?_, ?_⟩, ⟨?_, ?_⟩, ⟨?_, ?_⟩, ?_, ?_, ?_, ?_⟩ <;> decide +kernel

end Vdfs4
