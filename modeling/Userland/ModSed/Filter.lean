import Userland.Library.Storing
import Mathlib.Data.Int.Notation
import Mathlib.Data.List.GetD

/-!
# The output of the filter

`append_bucket`, `flush_output_buffer` and `sed_write_output` of `mod_sed/mod_sed.c`: what sed
writes is gathered in an output buffer, which goes to a brigade when it is full. As long as no write
finds the buffer overfull or is left with more than the next buffer holds when a brigade could not
be passed on (`InRoom`), no byte is lost or doubled and no copy goes past a buffer
(`filter_faithful_iff`).

Scope. The buckets refer to blocks of the pool, whose bytes are read when a brigade is passed on. A
fresh block holds zeros. What the next filter answers is a parameter, and sizes do not overflow.
-/

set_option autoImplicit false
set_option relaxedAutoImplicit false

namespace Userland.ModSed

open Userland.Library

def MODSED_OUTBUF_SIZE : ℕ := 8000

def MAX_TRANSIENT_BUCKETS : ℕ := 50

/-- A bucket with the first bytes of a block, or a flush bucket. -/
inductive Bucket
  | data (block size : ℕ)
  | flush
deriving DecidableEq

/-- The fields of `sed_filter_ctxt` for the output. The buckets are transient unless `tpool` is the
pool of the request. What has been passed on is kept with it. -/
structure FilterCtxt where
  transient : Bool
  bufsize : ℕ
  tpool : List (List UInt8)
  outbuf : Option ℕ
  curoutbuf : ℕ
  bb : List Bucket
  numbuckets : ℕ
  passed : List UInt8
  passes : ℕ

/-- The bytes of a bucket. -/
def bucketBytes (tpool : List (List UInt8)) : Bucket → List UInt8
  | .data block size => (tpool.getD block []).take size
  | .flush => []

namespace FilterCtxt

/-- The bytes of the data buckets that have been appended so far. -/
def appended (ctx : FilterCtxt) : List UInt8 := ctx.passed ++ ctx.bb.flatMap (bucketBytes ctx.tpool)

/-- The bytes from `outbuf` up to `curoutbuf`. -/
def pending (ctx : FilterCtxt) : List UInt8 :=
  match ctx.outbuf with
  | none => []
  | some outbuf => (ctx.tpool.getD outbuf []).take ctx.curoutbuf

/-- `apr_palloc(ctx->tpool, size)`; the block is the last one of the pool. -/
def palloc (ctx : FilterCtxt) (size : ℕ) : FilterCtxt :=
  { ctx with tpool := ctx.tpool ++ [List.replicate size 0] }

/-- `memcpy` to an offset of a block, or none if that goes past the block. -/
def memcpy (ctx : FilterCtxt) (block offset : ℕ) (bytes : List UInt8) : Option FilterCtxt :=
  (store (ctx.tpool.getD block []) offset bytes).map fun after ↦
    { ctx with tpool := ctx.tpool.set block after }

/-- `clear_ctxpool(ctx)`. -/
def clearCtxpool (ctx : FilterCtxt) : FilterCtxt :=
  { ctx with tpool := [], outbuf := none, curoutbuf := 0, numbuckets := 0 }

/-- `alloc_outbuf(ctx)`. -/
def allocOutbuf (ctx : FilterCtxt) : FilterCtxt :=
  { ctx.palloc (ctx.bufsize + 1) with outbuf := some ctx.tpool.length, curoutbuf := 0 }

/-- `if (ctx->outbuf == NULL) alloc_outbuf(ctx);`. -/
def ensureOutbuf (ctx : FilterCtxt) : FilterCtxt :=
  match ctx.outbuf with
  | none => ctx.allocOutbuf
  | some _ => ctx

/-- `memcpy(ctx->curoutbuf, buf, sz); ctx->curoutbuf += sz;`. -/
def put (ctx : FilterCtxt) (buf : List UInt8) : Option FilterCtxt :=
  ctx.outbuf.bind fun outbuf ↦ (ctx.memcpy outbuf ctx.curoutbuf buf).map fun ctx ↦
    { ctx with curoutbuf := ctx.curoutbuf + buf.length }

end FilterCtxt

section Downstream

-- `next n` tells whether the next filter takes the brigade number `n`
variable (next : ℕ → Bool)

/-- `append_bucket(ctx, buf, sz)`, with its status. -/
def appendBucket (ctx : FilterCtxt) (block size : ℕ) : FilterCtxt × Bool :=
  let ctx := { ctx with bb := ctx.bb ++ [Bucket.data block size] }
  if ctx.transient then
    let ctx := { ctx with numbuckets := ctx.numbuckets + 1 }
    if ctx.numbuckets ≥ MAX_TRANSIENT_BUCKETS then
      let ctx := { ctx with bb := ctx.bb ++ [Bucket.flush] }
      ({ ctx.clearCtxpool with passed := ctx.appended, bb := [], passes := ctx.passes + 1 },
        next ctx.passes)
    else (ctx, true)
  else (ctx, true)

/-- `flush_output_buffer(ctx)`, with its status, or none if a copy goes past a block. -/
def flushOutputBuffer (ctx : FilterCtxt) : Option (FilterCtxt × Bool) :=
  match ctx.outbuf with
  | none => some (ctx, true)
  | some _ =>
    if ctx.curoutbuf = 0 then some (ctx, true)
    else
      (((ctx.palloc ctx.curoutbuf).memcpy ctx.tpool.length 0 ctx.pending)).map fun copied ↦
        let after := appendBucket next copied ctx.tpool.length ctx.curoutbuf
        ({ after.1 with curoutbuf := 0 }, after.2)

/-- What `sed_write_output` does when the output buffer is full, with what is left to write. -/
def writeRest (ctx : FilterCtxt) (outbuf : ℕ) (buf : List UInt8) : Option (FilterCtxt × Bool) :=
  let full := appendBucket next ctx outbuf ctx.bufsize
  let ctx := full.1.allocOutbuf
  if full.2 ∧ buf.length ≥ ctx.bufsize then
    ((ctx.palloc buf.length).memcpy ctx.tpool.length 0 buf).map fun copied ↦
      let after := appendBucket next copied ctx.tpool.length buf.length
      (after.1.ensureOutbuf, after.2)
  else (ctx.put buf).map fun ctx ↦ (ctx, full.2)

/-- `sed_write_output(dummy, buf, sz)`, with its status, or none if a copy goes past a block. -/
def sedWriteOutput (ctx : FilterCtxt) (buf : List UInt8) : Option (FilterCtxt × Bool) :=
  let ctx := ctx.ensureOutbuf
  let remainbytes : ℤ := ctx.bufsize - ctx.curoutbuf
  if (buf.length : ℤ) ≥ remainbytes then
    if remainbytes > 0 then
      (ctx.put (buf.take remainbytes.toNat)).bind fun filled ↦
        filled.outbuf.bind fun outbuf ↦ writeRest next filled outbuf (buf.drop remainbytes.toNat)
    else ctx.outbuf.bind fun outbuf ↦ writeRest next ctx outbuf buf
  else (ctx.put buf).map fun ctx ↦ (ctx, true)

/-- What is asked of the output buffer: to take some bytes, or to be flushed. -/
inductive Event
  | write (buf : List UInt8)
  | flush

def Event.bytes : Event → List UInt8
  | .write buf => buf
  | .flush => []

/-- One call, whatever its status. -/
def step (ctx : FilterCtxt) : Event → Option FilterCtxt
  | .write buf => (sedWriteOutput next ctx buf).map Prod.fst
  | .flush => (flushOutputBuffer next ctx).map Prod.fst

/-- Some calls, one after the other, or none if a copy goes past a block. -/
def run (ctx : FilterCtxt) : List Event → Option FilterCtxt
  | [] => some ctx
  | event :: events => (step next ctx event).bind fun ctx ↦ run ctx events

end Downstream

/-- The context after `init_context`, with an empty brigade. -/
def initContext (transient : Bool) : FilterCtxt :=
  FilterCtxt.allocOutbuf ⟨transient, MODSED_OUTBUF_SIZE, [], none, 0, [], 0, [], 0⟩

/-! ### What the operations leave -/

/-- The next bucket makes the brigade be passed on. -/
def FilterCtxt.Passes (ctx : FilterCtxt) : Prop :=
  ctx.transient = true ∧ ctx.numbuckets + 1 ≥ MAX_TRANSIENT_BUCKETS

/-- The output buffer is a block of its own, and has no more than its length of bytes. -/
structure Valid (ctx : FilterCtxt) : Prop where
  bufsize_pos : 0 < ctx.bufsize
  buckets : ∀ block size, .data block size ∈ ctx.bb →
    block < ctx.tpool.length ∧ ctx.outbuf ≠ some block
  outbuf : ∀ outbuf, ctx.outbuf = some outbuf →
    outbuf < ctx.tpool.length ∧ (ctx.tpool.getD outbuf []).length = ctx.bufsize + 1
  cur_zero : ctx.outbuf = none → ctx.curoutbuf = 0
  cur_le : ctx.curoutbuf ≤ ctx.bufsize + 1

/-- Two contexts have the same sizes and the same brigades before them. -/
structure SameCounts (ctx ctx' : FilterCtxt) : Prop where
  transient : ctx'.transient = ctx.transient
  bufsize : ctx'.bufsize = ctx.bufsize
  numbuckets : ctx'.numbuckets = ctx.numbuckets
  passes : ctx'.passes = ctx.passes

theorem SameCounts.trans {ctx ctx' ctx'' : FilterCtxt} (h : SameCounts ctx ctx')
    (h' : SameCounts ctx' ctx'') :
    SameCounts ctx ctx'' :=
  ⟨h'.transient.trans h.transient, h'.bufsize.trans h.bufsize, h'.numbuckets.trans h.numbuckets,
    h'.passes.trans h.passes⟩

variable {next : ℕ → Bool} {ctx : FilterCtxt} {block size outbuf : ℕ} {buf : List UInt8}

theorem appendBucket_of_passes (h : ctx.Passes) :
    appendBucket next ctx block size =
      (⟨ctx.transient, ctx.bufsize, [], none, 0, [], 0,
        ctx.appended ++ bucketBytes ctx.tpool (.data block size),
        ctx.passes + 1⟩, next ctx.passes) := by
  unfold appendBucket
  dsimp only
  rw [if_pos h.1, if_pos h.2]
  simp only [FilterCtxt.clearCtxpool, FilterCtxt.appended, List.flatMap_append, List.flatMap_cons,
    List.flatMap_nil, List.append_nil, List.append_assoc, bucketBytes]

theorem appendBucket_of_not_passes (h : ¬ ctx.Passes) :
    ∃ numbuckets, (ctx.transient = true → numbuckets = ctx.numbuckets + 1) ∧
    appendBucket next ctx block size =
      ({ ctx with bb := ctx.bb ++ [Bucket.data block size], numbuckets := numbuckets }, true) := by
  unfold appendBucket
  dsimp only
  by_cases htransient : ctx.transient = true
  · rw [if_pos htransient, if_neg fun hfull ↦ h ⟨htransient, hfull⟩]
    exact ⟨_, fun _ ↦ rfl, rfl⟩
  · rw [if_neg htransient]
    exact ⟨ctx.numbuckets, fun htrue ↦ absurd htrue htransient, rfl⟩

/-- A pool that keeps the blocks of the buckets keeps what has been appended. -/
theorem appended_congr {tpool : List (List UInt8)}
    (h : ∀ block size, .data block size ∈ ctx.bb → tpool.getD block [] = ctx.tpool.getD block []) :
    ctx.passed ++ ctx.bb.flatMap (bucketBytes tpool) = ctx.appended := by
  rw [FilterCtxt.appended, List.flatMap_congr]
  intro bucket hbucket
  cases bucket with
  | data block size => rw [bucketBytes, bucketBytes, h block size hbucket]
  | flush => rfl

theorem appended_palloc (h : ∀ block size, .data block size ∈ ctx.bb → block < ctx.tpool.length)
    (size : ℕ) :
    (ctx.palloc size).appended = ctx.appended :=
  appended_congr fun block _ hbucket ↦ List.getD_append _ _ _ _ (h block _ hbucket)

theorem appended_allocOutbuf (h : ∀ block size, .data block size ∈ ctx.bb →
      block < ctx.tpool.length) :
    ctx.allocOutbuf.appended = ctx.appended :=
  appended_palloc h (ctx.bufsize + 1)

theorem pending_allocOutbuf : ctx.allocOutbuf.pending = [] := by
  show ((ctx.tpool ++ [List.replicate (ctx.bufsize + 1) 0]).getD ctx.tpool.length []).take 0 = []
  exact List.take_zero

theorem valid_allocOutbuf (hpos : 0 < ctx.bufsize)
    (h : ∀ block size, .data block size ∈ ctx.bb → block < ctx.tpool.length) :
    Valid ctx.allocOutbuf := by
  refine ⟨hpos, fun block size hbucket ↦ ?_, ?_, nofun, Nat.zero_le _⟩
  · have hlt := h block size hbucket
    refine ⟨?_, fun hsame ↦ ?_⟩
    · show block < (ctx.tpool ++ _).length
      rw [List.length_append]
      omega
    · have heq : ctx.tpool.length = block := Option.some.inj hsame
      omega
  · intro outbuf houtbuf
    obtain rfl : ctx.tpool.length = outbuf := Option.some.inj houtbuf
    refine ⟨?_, ?_⟩
    · show ctx.tpool.length < (ctx.tpool ++ _).length
      rw [List.length_append, List.length_singleton]
      omega
    · show ((ctx.tpool ++ _).getD ctx.tpool.length []).length = _
      rw [List.getD_append_right _ _ _ _ (Nat.le_refl _), Nat.sub_self, List.getD_cons_zero,
        List.length_replicate]
      rfl

theorem ensureOutbuf_spec (h : Valid ctx) :
    Valid ctx.ensureOutbuf ∧ ctx.ensureOutbuf.appended = ctx.appended ∧
    ctx.ensureOutbuf.pending = ctx.pending ∧
      ctx.ensureOutbuf.curoutbuf = ctx.curoutbuf ∧ SameCounts ctx ctx.ensureOutbuf ∧
      ∃ outbuf, ctx.ensureOutbuf.outbuf = some outbuf := by
  cases houtbuf : ctx.outbuf with
  | none =>
    have hlt := fun block size hbucket ↦ (h.buckets block size hbucket).1
    have heq : ctx.ensureOutbuf = ctx.allocOutbuf := by rw [FilterCtxt.ensureOutbuf, houtbuf]
    have hpending : ctx.pending = [] := by rw [FilterCtxt.pending, houtbuf]
    rw [heq, hpending, h.cur_zero houtbuf]
    exact ⟨valid_allocOutbuf h.bufsize_pos hlt, appended_allocOutbuf hlt, pending_allocOutbuf, rfl,
      ⟨rfl, rfl, rfl, rfl⟩, _, rfl⟩
  | some outbuf =>
    have heq : ctx.ensureOutbuf = ctx := by rw [FilterCtxt.ensureOutbuf, houtbuf]
    rw [heq]
    exact ⟨h, rfl, rfl, rfl, ⟨rfl, rfl, rfl, rfl⟩, outbuf, houtbuf⟩

theorem put_eq (houtbuf : ctx.outbuf = some outbuf) :
    ctx.put buf = (store (ctx.tpool.getD outbuf []) ctx.curoutbuf buf).map fun after ↦
      { ctx with tpool := ctx.tpool.set outbuf after, curoutbuf := ctx.curoutbuf + buf.length } := by
  unfold FilterCtxt.put FilterCtxt.memcpy
  rw [houtbuf, Option.bind_some, Option.map_map]
  simp only [Function.comp_def]

/-- Bytes that fit are put behind the pending ones. -/
theorem put_spec (h : Valid ctx) (houtbuf : ctx.outbuf = some outbuf)
    (hroom : ctx.curoutbuf + buf.length ≤ ctx.bufsize + 1) :
    ∃ ctx', ctx.put buf = some ctx' ∧ Valid ctx' ∧ ctx'.appended = ctx.appended ∧
      ctx'.pending = ctx.pending ++ buf ∧ ctx'.curoutbuf = ctx.curoutbuf + buf.length ∧
      SameCounts ctx ctx' ∧
      ctx'.outbuf = some outbuf := by
  obtain ⟨hlt, hlength⟩ := h.outbuf outbuf houtbuf
  obtain ⟨after, hafter⟩ : ∃ after, store (ctx.tpool.getD outbuf []) ctx.curoutbuf buf =
      some after :=
    store_of_le (by omega)
  have hget : (ctx.tpool.set outbuf after).getD outbuf [] = after := by
    rw [List.getD_eq_getElem?_getD, List.getElem?_set_self hlt]
    rfl
  have hother : ∀ block, block ≠ outbuf →
      (ctx.tpool.set outbuf after).getD block [] = ctx.tpool.getD block [] := by
    intro block hne
    rw [List.getD_eq_getElem?_getD, List.getElem?_set_ne (Ne.symm hne), List.getD_eq_getElem?_getD]
  refine ⟨{ ctx with tpool := ctx.tpool.set outbuf after, curoutbuf := ctx.curoutbuf + buf.length },
    ?_, ?_, ?_, ?_, rfl, ⟨rfl, rfl, rfl, rfl⟩, houtbuf⟩
  · rw [put_eq houtbuf, hafter]
    rfl
  · refine ⟨h.bufsize_pos, fun block size hbucket ↦ ?_, fun outbuf' houtbuf' ↦ ?_,
      fun hnone ↦ ?_, hroom⟩
    · obtain ⟨hblock, hne⟩ := h.buckets block size hbucket
      exact ⟨by rw [List.length_set]; exact hblock, hne⟩
    · obtain rfl := Option.some.inj (houtbuf.symm.trans houtbuf')
      exact ⟨by rw [List.length_set]; exact hlt, by rw [hget, length_store hafter]; exact hlength⟩
    · exact absurd (houtbuf.symm.trans hnone) (Option.some_ne_none _)
  · refine appended_congr fun block size hbucket ↦ hother block fun heq ↦ ?_
    exact (h.buckets block size hbucket).2 (houtbuf.trans (congrArg some heq.symm))
  · rw [FilterCtxt.pending, FilterCtxt.pending, houtbuf]
    dsimp only
    rw [hget, take_store hafter]

theorem put_eq_none (h : Valid ctx) (houtbuf : ctx.outbuf = some outbuf)
    (hfull : ctx.bufsize + 1 < ctx.curoutbuf + buf.length) : ctx.put buf = none := by
  obtain ⟨-, hlength⟩ := h.outbuf outbuf houtbuf
  have hstore : store (ctx.tpool.getD outbuf []) ctx.curoutbuf buf = none := by
    by_contra hne
    have hle := store_ne_none_iff.mp hne
    omega
  rw [put_eq houtbuf, hstore]
  rfl

theorem pending_of_cur_zero (h : ctx.curoutbuf = 0) : ctx.pending = [] := by
  unfold FilterCtxt.pending
  rw [h]
  cases ctx.outbuf with
  | none => rfl
  | some outbuf => exact List.take_zero

theorem length_pending (h : Valid ctx) : ctx.pending.length = ctx.curoutbuf := by
  unfold FilterCtxt.pending
  have hle := h.cur_le
  cases houtbuf : ctx.outbuf with
  | none => rw [h.cur_zero houtbuf]; rfl
  | some outbuf =>
    dsimp only
    rw [List.length_take, (h.outbuf outbuf houtbuf).2]
    omega

/-- The next brigade is passed on, and the next filter does not take it. -/
def FilterCtxt.Refused (next : ℕ → Bool) (ctx : FilterCtxt) :
    Prop := ctx.Passes ∧ next ctx.passes = false

theorem status_appendBucket : (appendBucket next ctx block size).2 = false ↔ ctx.Refused next := by
  by_cases hpasses : ctx.Passes
  · rw [appendBucket_of_passes hpasses]
    exact ⟨fun h ↦ ⟨hpasses, h⟩, fun h ↦ h.2⟩
  · obtain ⟨numbuckets, -, heq⟩ := @appendBucket_of_not_passes next ctx block size hpasses
    rw [heq]
    exact ⟨fun h ↦ absurd h Bool.true_eq_false.mp, fun h ↦ absurd h.1 hpasses⟩

/-- A full output buffer becomes a bucket, and there is a new one. -/
theorem handOver_spec (next : ℕ → Bool) (h : Valid ctx) (houtbuf : ctx.outbuf = some outbuf) :
    let after := (appendBucket next ctx outbuf ctx.bufsize).1.allocOutbuf
    Valid after ∧ after.appended = ctx.appended ++ (ctx.tpool.getD outbuf []).take ctx.bufsize ∧
      after.bufsize = ctx.bufsize := by
  dsimp only
  by_cases hpasses : ctx.Passes
  · rw [appendBucket_of_passes hpasses]
    exact ⟨valid_allocOutbuf h.bufsize_pos nofun, List.append_nil _, rfl⟩
  · obtain ⟨numbuckets, -, heq⟩ := @appendBucket_of_not_passes next ctx outbuf ctx.bufsize hpasses
    have hlt : ∀ block size, .data block size ∈ ctx.bb ++ [Bucket.data outbuf ctx.bufsize] →
        block < ctx.tpool.length := by
      intro block size hbucket
      obtain hold | hnew := List.mem_append.mp hbucket
      · exact (h.buckets block size hold).1
      · obtain ⟨rfl, -⟩ := Bucket.data.inj (List.mem_singleton.mp hnew)
        exact (h.outbuf _ houtbuf).1
    rw [heq]
    refine ⟨valid_allocOutbuf h.bufsize_pos hlt, ?_, rfl⟩
    rw [appended_allocOutbuf hlt]
    simp only [FilterCtxt.appended, List.flatMap_append, List.flatMap_singleton, List.append_assoc,
      bucketBytes]

/-- A copy of some bytes in a fresh block. -/
theorem memcpy_palloc (ctx : FilterCtxt) (bytes : List UInt8) :
    (ctx.palloc bytes.length).memcpy ctx.tpool.length 0 bytes =
    some { ctx with tpool := ctx.tpool ++ [bytes] } := by
  have hfits : 0 + bytes.length ≤ (List.replicate bytes.length (0 : UInt8)).length := by
    rw [List.length_replicate]
    omega
  obtain ⟨after, hafter⟩ := store_of_le hfits
  have hbytes : after = bytes := by
    rw [eq_of_store hafter, List.take_zero, List.nil_append, Nat.zero_add, List.drop_of_length_le
      (Nat.le_of_eq List.length_replicate), List.append_nil]
  have hget : (ctx.palloc bytes.length).tpool.getD ctx.tpool.length [] =
      List.replicate bytes.length 0 := by
    show (ctx.tpool ++ _).getD ctx.tpool.length [] = _
    rw [List.getD_append_right _ _ _ _ (Nat.le_refl _), Nat.sub_self, List.getD_cons_zero]
  rw [FilterCtxt.memcpy, hget, hafter, hbytes, Option.map_some]
  simp only [FilterCtxt.palloc, List.set_append_right _ _ (Nat.le_refl ctx.tpool.length),
    Nat.sub_self, List.set_cons_zero]

/-- Some bytes become a bucket of their own. -/
theorem appendFresh_spec (next : ℕ → Bool) (h : Valid ctx) (bytes : List UInt8) :
    let after :=
    (appendBucket next { ctx with tpool := ctx.tpool ++ [bytes] } ctx.tpool.length bytes.length).1
    Valid after ∧ after.appended = ctx.appended ++ bytes ∧ after.bufsize = ctx.bufsize ∧
      (ctx.curoutbuf = 0 → after.curoutbuf = 0) := by
  dsimp only
  have hkept : ∀ block size, .data block size ∈ ctx.bb →
      (ctx.tpool ++ [bytes]).getD block [] = ctx.tpool.getD block [] :=
    fun block size hbucket ↦ List.getD_append _ _ _ _ (h.buckets block size hbucket).1
  have hfresh : bucketBytes (ctx.tpool ++ [bytes]) (.data ctx.tpool.length bytes.length) =
      bytes := by
    rw [bucketBytes, List.getD_append_right _ _ _ _ (Nat.le_refl _), Nat.sub_self,
      List.getD_cons_zero, List.take_length]
  by_cases hpasses : FilterCtxt.Passes { ctx with tpool := ctx.tpool ++ [bytes] }
  · rw [appendBucket_of_passes hpasses, hfresh]
    refine ⟨⟨h.bufsize_pos, nofun, nofun, fun _ ↦ rfl, Nat.zero_le _⟩, ?_, rfl, fun _ ↦ rfl⟩
    show (_ ++ _) ++ ([] : List Bucket).flatMap _ = _
    rw [List.flatMap_nil, List.append_nil, ← appended_congr hkept]
    rfl
  · obtain ⟨numbuckets, -, heq⟩ :=
      @appendBucket_of_not_passes next _ ctx.tpool.length bytes.length hpasses
    rw [heq]
    refine ⟨⟨h.bufsize_pos, fun block size hbucket ↦ ?_, fun outbuf houtbuf ↦ ?_, h.cur_zero,
      h.cur_le⟩, ?_, rfl, id⟩
    · have hlength : (ctx.tpool ++ [bytes]).length = ctx.tpool.length + 1 := List.length_append
      obtain hold | hnew := List.mem_append.mp hbucket
      · obtain ⟨hlt, hne⟩ := h.buckets block size hold
        exact ⟨by dsimp only; omega, hne⟩
      · obtain ⟨rfl, -⟩ := Bucket.data.inj (List.mem_singleton.mp hnew)
        refine ⟨by dsimp only; omega, fun hsame ↦ ?_⟩
        exact Nat.lt_irrefl _ (h.outbuf _ hsame).1
    · obtain ⟨hlt, hlength⟩ := h.outbuf outbuf houtbuf
      refine ⟨?_, ?_⟩
      · show outbuf < (ctx.tpool ++ [bytes]).length
        rw [List.length_append]
        omega
      · show ((ctx.tpool ++ [bytes]).getD outbuf []).length = _
        rw [List.getD_append _ _ _ _ hlt, hlength]
    · rw [← appended_congr hkept]
      simp only [FilterCtxt.appended, List.flatMap_append, List.flatMap_singleton, hfresh,
        List.append_assoc]

/-- The bytes that have been written so far: those of the buckets, and the pending ones. -/
def FilterCtxt.total (ctx : FilterCtxt) : List UInt8 := ctx.appended ++ ctx.pending

theorem writeRest_spec (next : ℕ → Bool) (h : Valid ctx) (houtbuf : ctx.outbuf = some outbuf)
    (buf : List UInt8) (hroom : ctx.Refused next → buf.length ≤ ctx.bufsize + 1) :
    ∃ after, writeRest next ctx outbuf buf = some after ∧ Valid after.1 ∧
      after.1.total = ctx.appended ++ (ctx.tpool.getD outbuf []).take ctx.bufsize ++ buf := by
  obtain ⟨hvalid, happended, hbufsize⟩ := handOver_spec next h houtbuf
  have hstatus : (appendBucket next ctx outbuf ctx.bufsize).2 = false ↔ _ := status_appendBucket
  unfold writeRest
  dsimp only
  generalize hfull : appendBucket next ctx outbuf ctx.bufsize =
    full at hvalid happended hbufsize hstatus
  by_cases hdirect : full.2 = true ∧ buf.length ≥ full.1.allocOutbuf.bufsize
  · obtain ⟨hfresh, hfreshAppended, -, hfreshCur⟩ := appendFresh_spec next hvalid buf
    rw [if_pos hdirect, memcpy_palloc, Option.map_some]
    obtain ⟨hensured, hensuredAppended, hensuredPending, -⟩ := ensureOutbuf_spec hfresh
    refine ⟨_, rfl, hensured, ?_⟩
    rw [FilterCtxt.total, hensuredAppended, hensuredPending, hfreshAppended, happended,
      pending_of_cur_zero (hfreshCur rfl), List.append_nil]
  · have hfits : buf.length ≤ ctx.bufsize + 1 := by
      by_cases htrue : full.2 = true
      · have hshort : ¬ buf.length ≥ full.1.allocOutbuf.bufsize := fun hge ↦ hdirect ⟨htrue, hge⟩
        omega
      · exact hroom (hstatus.mp ((Bool.not_eq_true _).mp htrue))
    obtain ⟨ctx', hput, hvalid', happended', hpending', -⟩ :=
      @put_spec _ _ buf hvalid rfl (show 0 + buf.length ≤ _ by omega)
    rw [if_neg hdirect, hput]
    refine ⟨_, rfl, hvalid', ?_⟩
    rw [FilterCtxt.total, happended', hpending', happended, pending_allocOutbuf, List.nil_append]

theorem writeRest_eq_none (h : Valid ctx) (houtbuf : ctx.outbuf = some outbuf)
    (hrefused : ctx.Refused next)
    (hlong : ctx.bufsize + 1 < buf.length) : writeRest next ctx outbuf buf = none := by
  obtain ⟨hvalid, -, hbufsize⟩ := handOver_spec next h houtbuf
  have hstatus : (appendBucket next ctx outbuf ctx.bufsize).2 = false :=
    status_appendBucket.mpr hrefused
  unfold writeRest
  dsimp only
  rw [if_neg fun hdirect ↦ by rw [hstatus] at hdirect; exact Bool.false_ne_true hdirect.1,
    put_eq_none hvalid rfl (show _ < 0 + buf.length by omega)]
  rfl

/-! ### Single calls -/

/-- What a call needs: a write does not find the output buffer overfull, and if it makes the next
filter refuse a brigade, then what is left of it goes into the next output buffer. -/
def InRoom (next : ℕ → Bool) (ctx : FilterCtxt) : Event → Prop
  | .write buf => ctx.curoutbuf ≤ ctx.bufsize ∧
      (ctx.Refused next → buf.length ≤ ctx.bufsize - ctx.curoutbuf + (ctx.bufsize + 1))
  | .flush => True

theorem refused_congr {ctx' : FilterCtxt} (h : SameCounts ctx ctx') :
    ctx'.Refused next ↔ ctx.Refused next := by
  unfold FilterCtxt.Refused FilterCtxt.Passes
  rw [h.transient, h.numbuckets, h.passes]

/-- A write that fills the output buffer. -/
theorem sedWriteOutput_full (h : Valid ctx) (hcur : ctx.curoutbuf ≤ ctx.bufsize)
    (hfull : ctx.bufsize - ctx.curoutbuf ≤ buf.length) :
    ∃ filled outbuf, Valid filled ∧ filled.outbuf = some outbuf ∧ SameCounts ctx filled ∧
      filled.appended ++ (filled.tpool.getD outbuf []).take filled.bufsize ++
        buf.drop (ctx.bufsize - ctx.curoutbuf) = ctx.total ++ buf ∧
      sedWriteOutput next ctx buf = writeRest next filled outbuf
      (buf.drop (ctx.bufsize - ctx.curoutbuf)) := by
  obtain ⟨hensured, happended, hpending, hcur', hcounts, outbuf, houtbuf⟩ := ensureOutbuf_spec h
  have hbufsize := hcounts.bufsize
  have htotal : ∀ bytes : List UInt8, ctx.total ++ bytes =
      ctx.ensureOutbuf.appended ++ (ctx.ensureOutbuf.pending ++ bytes) := by
    intro bytes
    rw [FilterCtxt.total, happended, hpending, List.append_assoc]
  have hlong : (buf.length : ℤ) ≥ ctx.ensureOutbuf.bufsize - ctx.ensureOutbuf.curoutbuf := by omega
  unfold sedWriteOutput
  dsimp only
  rw [if_pos hlong]
  by_cases hspace : (ctx.ensureOutbuf.bufsize : ℤ) - ctx.ensureOutbuf.curoutbuf > 0
  · have hremain : ((ctx.ensureOutbuf.bufsize : ℤ) - ctx.ensureOutbuf.curoutbuf).toNat =
        ctx.bufsize - ctx.curoutbuf := by omega
    have htake : (buf.take (ctx.bufsize - ctx.curoutbuf)).length = ctx.bufsize - ctx.curoutbuf := by
      rw [List.length_take]
      omega
    obtain ⟨filled, hput, hfilled, hfilledAppended, hfilledPending, hfilledCur, hfilledCounts,
        hfilledOutbuf⟩ :=
      @put_spec _ _ (buf.take (ctx.bufsize - ctx.curoutbuf)) hensured houtbuf (by omega)
    have hblock : filled.pending = (filled.tpool.getD outbuf []).take filled.curoutbuf := by
      rw [FilterCtxt.pending, hfilledOutbuf]
    have hfilledBufsize := hfilledCounts.bufsize
    have hend : filled.curoutbuf = filled.bufsize := by omega
    refine ⟨filled, outbuf, hfilled, hfilledOutbuf, ?_, ?_, ?_⟩
    · exact hcounts.trans hfilledCounts
    · rw [← hend, ← hblock, hfilledAppended, hfilledPending, htotal, List.append_assoc,
        List.append_assoc, List.take_append_drop]
    · rw [if_pos hspace, hremain, hput, Option.bind_some, hfilledOutbuf, Option.bind_some]
  · have hblock : ctx.ensureOutbuf.pending =
        (ctx.ensureOutbuf.tpool.getD outbuf []).take ctx.ensureOutbuf.curoutbuf := by
      rw [FilterCtxt.pending, houtbuf]
    have hend : ctx.ensureOutbuf.curoutbuf = ctx.ensureOutbuf.bufsize := by omega
    have hremain : ctx.bufsize - ctx.curoutbuf = 0 := by omega
    refine ⟨ctx.ensureOutbuf, outbuf, hensured, houtbuf, hcounts, ?_, ?_⟩
    · rw [← hend, ← hblock, htotal, hremain, List.drop_zero, List.append_assoc]
    · rw [if_neg hspace, houtbuf, Option.bind_some, hremain, List.drop_zero]

theorem sedWriteOutput_short (h : Valid ctx) (hshort : ctx.curoutbuf + buf.length < ctx.bufsize) :
    ∃ ctx', sedWriteOutput next ctx buf = some (ctx', true) ∧ Valid ctx' ∧
    ctx'.total = ctx.total ++ buf ∧
      SameCounts ctx ctx' ∧ ctx'.curoutbuf = ctx.curoutbuf + buf.length := by
  obtain ⟨hensured, happended, hpending, hcur, hcounts, outbuf, houtbuf⟩ := ensureOutbuf_spec h
  have hbufsize := hcounts.bufsize
  obtain ⟨ctx', hput, hvalid, happended', hpending', hcur', hcounts', -⟩ :=
    @put_spec _ _ buf hensured houtbuf (by omega)
  refine ⟨ctx', ?_, hvalid, ?_, hcounts.trans hcounts', by rw [hcur', hcur]⟩
  · unfold sedWriteOutput
    dsimp only
    rw [if_neg (by omega), hput]
    rfl
  · rw [FilterCtxt.total, happended', hpending', happended, hpending, FilterCtxt.total,
      List.append_assoc]

/-- A write to an overfull output buffer drops the byte that is too much. -/
theorem sedWriteOutput_overfull (h : Valid ctx) (hover : ctx.bufsize < ctx.curoutbuf)
    {after : FilterCtxt × Bool}
    (hafter : sedWriteOutput next ctx buf = some after) : after.1.total ≠ ctx.total ++ buf := by
  obtain ⟨hensured, happended, hpending, hcur, hcounts, outbuf, houtbuf⟩ := ensureOutbuf_spec h
  have hbufsize := hcounts.bufsize
  have hblock := length_pending hensured
  have hlength := (hensured.outbuf outbuf houtbuf).2
  unfold sedWriteOutput at hafter
  dsimp only at hafter
  rw [if_pos (by omega), if_neg (by omega), houtbuf, Option.bind_some] at hafter
  by_cases hroom : ctx.ensureOutbuf.Refused next → buf.length ≤ ctx.ensureOutbuf.bufsize + 1
  · obtain ⟨after', hrest, -, htotal⟩ := writeRest_spec next hensured houtbuf buf hroom
    obtain rfl := Option.some.inj (hrest.symm.trans hafter)
    intro heq
    have hbytes := congrArg List.length (htotal.symm.trans heq)
    rw [FilterCtxt.total, ← happended, ← hpending] at hbytes
    simp only [List.length_append, List.length_take, hlength, hblock] at hbytes
    omega
  · rw [Classical.not_imp] at hroom
    rw [writeRest_eq_none hensured houtbuf hroom.1 (by omega)] at hafter
    cases hafter

theorem flushOutputBuffer_spec (next : ℕ → Bool) (h : Valid ctx) :
    ∃ after, flushOutputBuffer next ctx = some after ∧ Valid after.1 ∧
    after.1.total = ctx.total := by
  unfold flushOutputBuffer
  cases houtbuf : ctx.outbuf with
  | none => exact ⟨_, rfl, h, rfl⟩
  | some outbuf =>
    dsimp only
    by_cases hzero : ctx.curoutbuf = 0
    · rw [if_pos hzero]
      exact ⟨_, rfl, h, rfl⟩
    · have hcopy := memcpy_palloc ctx ctx.pending
      rw [length_pending h] at hcopy
      obtain ⟨hvalid, happended, -, -⟩ := appendFresh_spec next h ctx.pending
      rw [length_pending h] at hvalid happended
      rw [if_neg hzero, hcopy]
      refine ⟨_, rfl, ?_, ?_⟩
      · exact ⟨hvalid.bufsize_pos, hvalid.buckets, hvalid.outbuf, fun _ ↦ rfl, Nat.zero_le _⟩
      · rw [FilterCtxt.total]
        refine Eq.trans ?_ happended
        refine (congrArg _ (pending_of_cur_zero ?_)).trans (List.append_nil _)
        rfl

/-- In room, a call keeps every byte. -/
theorem step_of_inRoom (next : ℕ → Bool) (h : Valid ctx) {event : Event}
    (hroom : InRoom next ctx event) :
    ∃ ctx', step next ctx event = some ctx' ∧ Valid ctx' ∧
    ctx'.total = ctx.total ++ event.bytes := by
  cases event with
  | flush =>
    obtain ⟨after, hafter, hvalid, htotal⟩ := flushOutputBuffer_spec next h
    refine ⟨after.1, ?_, hvalid, ?_⟩
    · rw [step, hafter, Option.map_some]
    · rw [htotal, Event.bytes, List.append_nil]
  | write buf =>
    obtain ⟨hcur, hrefused⟩ := hroom
    by_cases hfull : ctx.bufsize - ctx.curoutbuf ≤ buf.length
    · obtain ⟨filled, outbuf, hfilled, houtbuf, hcounts, hbytes, hwrite⟩ :=
        @sedWriteOutput_full next ctx buf h hcur hfull
      have hbufsize := hcounts.bufsize
      have hrest : filled.Refused next → (buf.drop (ctx.bufsize - ctx.curoutbuf)).length ≤
          filled.bufsize + 1 := by
        intro hrefused'
        have hle := hrefused ((refused_congr hcounts).mp hrefused')
        rw [List.length_drop]
        omega
      obtain ⟨after, hafter, hvalid, htotal⟩ := writeRest_spec next hfilled houtbuf _ hrest
      refine ⟨after.1, ?_, hvalid, htotal.trans hbytes⟩
      rw [step, hwrite, hafter, Option.map_some]
    · obtain ⟨ctx', hwrite, hvalid, htotal, -⟩ := @sedWriteOutput_short next ctx buf h (by omega)
      refine ⟨ctx', ?_, hvalid, htotal⟩
      rw [step, hwrite, Option.map_some]

/-- When the next filter refuses the brigade, what is left may not go into the next output buffer.
-/
theorem sedWriteOutput_eq_none (h : Valid ctx) (hcur : ctx.curoutbuf ≤ ctx.bufsize)
    (hrefused : ctx.Refused next)
    (hlong : ctx.bufsize - ctx.curoutbuf + (ctx.bufsize + 1) < buf.length) :
    sedWriteOutput next ctx buf = none := by
  obtain ⟨filled, outbuf, hfilled, houtbuf, hcounts, -, hwrite⟩ :=
    @sedWriteOutput_full next ctx buf h hcur (by omega)
  have hbufsize := hcounts.bufsize
  rw [hwrite]
  apply writeRest_eq_none hfilled houtbuf ((refused_congr hcounts).mpr hrefused)
  rw [List.length_drop]
  omega

/-- Out of room, a call loses a byte, or makes a copy that goes past a block. -/
theorem inRoom_of_step (next : ℕ → Bool) (h : Valid ctx) {event : Event} {ctx' : FilterCtxt}
    (hstep : step next ctx event = some ctx') (htotal : ctx'.total = ctx.total ++ event.bytes) :
    InRoom next ctx event := by
  cases event with
  | flush => exact trivial
  | write buf =>
    rw [step] at hstep
    obtain ⟨after, hafter, rfl⟩ := Option.map_eq_some_iff.mp hstep
    by_cases hcur : ctx.curoutbuf ≤ ctx.bufsize
    · refine ⟨hcur, fun hrefused ↦ ?_⟩
      by_contra hlong
      rw [sedWriteOutput_eq_none h hcur hrefused (Nat.lt_of_not_le hlong)] at hafter
      cases hafter
    · exact absurd htotal (sedWriteOutput_overfull h (by omega) hafter)

/-! ### Whole runs -/

section Runs

variable (next : ℕ → Bool)

/-- After some calls every byte written so far is in a bucket or pending, in order, and no copy has
gone past a block. -/
def Faithful (ctx : FilterCtxt) (events : List Event) : Prop :=
  ∃ ctx', run next ctx events = some ctx' ∧ ctx'.total = ctx.total ++ events.flatMap Event.bytes

/-- Every call of a run is in room. -/
def InRoomThroughout (ctx : FilterCtxt) : List Event → Prop
  | [] => True
  | event :: events => InRoom next ctx event ∧
      ∀ ctx', step next ctx event = some ctx' → InRoomThroughout ctx' events

theorem faithful_nil : Faithful next ctx [] := ⟨ctx, rfl, (List.append_nil _).symm⟩

theorem faithful_cons {event : Event} {events : List Event} {ctx' : FilterCtxt}
    (hstep : step next ctx event = some ctx') (htotal : ctx'.total = ctx.total ++ event.bytes) :
    Faithful next ctx (event :: events) ↔ Faithful next ctx' events := by
  unfold Faithful
  rw [run, hstep, Option.bind_some, htotal, List.flatMap_cons, List.append_assoc]

theorem step_of_faithful {event : Event} (h : Faithful next ctx [event]) :
    ∃ ctx', step next ctx event = some ctx' ∧ ctx'.total = ctx.total ++ event.bytes := by
  obtain ⟨ctx', hrun, htotal⟩ := h
  rw [run] at hrun
  obtain ⟨after, hstep, hnil⟩ := Option.bind_eq_some_iff.mp hrun
  obtain rfl := Option.some.inj hnil
  rw [List.flatMap_singleton] at htotal
  exact ⟨after, hstep, htotal⟩

theorem faithful_prefixes_iff (h : Valid ctx) (events : List Event) :
    (∀ before, before <+: events → Faithful next ctx before) ↔
    InRoomThroughout next ctx events := by
  induction events generalizing ctx with
  | nil =>
    refine ⟨fun _ ↦ trivial, fun _ before hbefore ↦ ?_⟩
    rw [List.prefix_nil.mp hbefore]
    exact faithful_nil next
  | cons event events ih =>
    rw [InRoomThroughout]
    constructor
    · intro hall
      obtain ⟨ctx', hstep, htotal⟩ := step_of_faithful next (hall [event] ⟨events, rfl⟩)
      have hroom := inRoom_of_step next h hstep htotal
      obtain ⟨ctx'', hstep', hvalid, -⟩ := step_of_inRoom next h hroom
      obtain rfl := Option.some.inj (hstep'.symm.trans hstep)
      refine ⟨hroom, fun after hafter ↦ ?_⟩
      obtain rfl := Option.some.inj (hstep.symm.trans hafter)
      refine (ih hvalid).mp fun before hbefore ↦ ?_
      exact (faithful_cons next hstep htotal).mp (hall _ (List.cons_prefix_cons.mpr ⟨rfl, hbefore⟩))
    · rintro ⟨hroom, hrest⟩ before hbefore
      obtain ⟨ctx', hstep, hvalid, htotal⟩ := step_of_inRoom next h hroom
      cases before with
      | nil => exact faithful_nil next
      | cons first before =>
        obtain ⟨rfl, htail⟩ := List.cons_prefix_cons.mp hbefore
        exact (faithful_cons next hstep htotal).mpr
          ((ih hvalid).mpr (hrest ctx' hstep) before htail)

theorem valid_initContext (transient : Bool) : Valid (initContext transient) :=
  valid_allocOutbuf (show 0 < MODSED_OUTBUF_SIZE from Nat.succ_pos _) nofun

/-- From a fresh context on, all the bytes are there after each call, and no copy goes past a block,
if and only if each write finds the output buffer with no more than `bufsize` bytes, and no write
that makes the next filter refuse a brigade has more left than the next output buffer takes. -/
theorem filter_faithful_iff (transient : Bool) (events : List Event) :
    (∀ before, before <+: events → Faithful next (initContext transient) before) ↔
      InRoomThroughout next (initContext transient) events :=
  faithful_prefixes_iff next (valid_initContext transient) events

end Runs

/-! ### A refused brigade -/

/-- One byte is written, and flushed. -/
def oneByte : List Event := [.write [0], .flush]

/-- Some buckets are in the brigade, and the output buffer is empty. -/
structure Gathered (buckets : ℕ) (ctx : FilterCtxt) : Prop where
  valid : Valid ctx
  counts : SameCounts { initContext true with numbuckets := buckets } ctx
  cur : ctx.curoutbuf = 0

theorem run_append (ctx : FilterCtxt) (events events' : List Event) :
    run next ctx (events ++ events') = (run next ctx events).bind fun ctx ↦
    run next ctx events' := by
  induction events generalizing ctx with
  | nil => rfl
  | cons event events ih =>
    rw [List.cons_append, run, run, Option.bind_assoc]
    exact congrArg _ (funext ih)

theorem gathered_initContext : Gathered 0 (initContext true) :=
  ⟨valid_initContext true, ⟨rfl, rfl, rfl, rfl⟩, rfl⟩

theorem flushOutputBuffer_counts (h : Valid ctx) (hcur : ctx.curoutbuf ≠ 0)
    (htransient : ctx.transient = true) (hpasses : ¬ ctx.Passes) :
    ∃ after, flushOutputBuffer next ctx = some after ∧ after.1.curoutbuf = 0 ∧
      SameCounts { ctx with numbuckets := ctx.numbuckets + 1 } after.1 := by
  obtain ⟨outbuf, houtbuf⟩ : ∃ outbuf, ctx.outbuf = some outbuf :=
    Option.ne_none_iff_exists'.mp fun hnone ↦ hcur (h.cur_zero hnone)
  have hcopy := memcpy_palloc ctx ctx.pending
  rw [length_pending h] at hcopy
  obtain ⟨numbuckets, hnumbuckets, heq⟩ := @appendBucket_of_not_passes next
    { ctx with tpool := ctx.tpool ++ [ctx.pending] } ctx.tpool.length ctx.curoutbuf hpasses
  unfold flushOutputBuffer
  rw [houtbuf]
  dsimp only
  rw [if_neg hcur, hcopy]
  refine ⟨_, rfl, rfl, ?_⟩
  dsimp only
  rw [heq]
  exact ⟨rfl, rfl, hnumbuckets htransient, rfl⟩

theorem gathered_oneByte (next : ℕ → Bool) {buckets : ℕ} (h : Gathered buckets ctx)
    (hlt : buckets + 1 < MAX_TRANSIENT_BUCKETS) :
    ∃ ctx', run next ctx oneByte = some ctx' ∧ Gathered (buckets + 1) ctx' := by
  have hbufsize : ctx.bufsize = 8000 := h.counts.bufsize
  have hcur := h.cur
  obtain ⟨written, hwrite, hvalid, -, hcounts, hwritten⟩ :=
    @sedWriteOutput_short next ctx [0] h.valid (by rw [hcur, hbufsize]; decide)
  have hall := h.counts.trans hcounts
  have hone : written.curoutbuf ≠ 0 := by
    rw [hwritten]
    exact Nat.succ_ne_zero _
  have hpasses : ¬ written.Passes := by
    rintro ⟨-, hfull⟩
    have hnumbuckets : written.numbuckets = buckets := hall.numbuckets
    omega
  obtain ⟨after, hflush, hzero, hcounts'⟩ :=
    @flushOutputBuffer_counts next written hvalid hone hall.transient hpasses
  obtain ⟨after', hflush', hvalid', -⟩ := flushOutputBuffer_spec next hvalid
  obtain rfl := Option.some.inj (hflush'.symm.trans hflush)
  refine ⟨after'.1, ?_, hvalid', ?_, hzero⟩
  · rw [oneByte, run, step, hwrite, Option.map_some, Option.bind_some, run, step, hflush]
    rfl
  · refine ⟨hcounts'.transient.trans hall.transient, hcounts'.bufsize.trans hall.bufsize, ?_,
      hcounts'.passes.trans hall.passes⟩
    exact hcounts'.numbuckets.trans (congrArg (· + 1) hall.numbuckets)

theorem gathered_replicate (next : ℕ → Bool) (buckets : ℕ) (h : buckets < MAX_TRANSIENT_BUCKETS) :
    ∃ ctx, run next (initContext true) (List.replicate buckets oneByte).flatten = some ctx ∧
    Gathered buckets ctx := by
  induction buckets with
  | zero => exact ⟨_, rfl, gathered_initContext⟩
  | succ buckets ih =>
    obtain ⟨ctx, hrun, hgathered⟩ := ih (Nat.lt_of_succ_lt h)
    obtain ⟨ctx', hrun', hgathered'⟩ := gathered_oneByte next hgathered h
    refine ⟨ctx', ?_, hgathered'⟩
    rw [List.replicate_succ', List.flatten_append, List.flatten_singleton, run_append, hrun,
      Option.bind_some, hrun']

/-- When 49 single bytes have been flushed, a write of 16002 bytes makes a next filter refuse the
brigade, and is left with 8002 bytes for a block of 8001. -/
theorem run_refused : run (fun _ ↦ false) (initContext true)
    ((List.replicate 49 oneByte).flatten ++ [.write (List.replicate 16002 0)]) = none := by
  obtain ⟨ctx, hrun, hgathered⟩ := gathered_replicate (fun _ ↦ false) 49 (by decide)
  have hbufsize : ctx.bufsize = 8000 := hgathered.counts.bufsize
  have hnumbuckets : ctx.numbuckets = 49 := hgathered.counts.numbuckets
  have hcur := hgathered.cur
  have hrefused : ctx.Refused fun _ ↦ false :=
    ⟨⟨hgathered.counts.transient, Nat.le_of_eq (congrArg (· + 1) hnumbuckets.symm)⟩, rfl⟩
  have hwrite : sedWriteOutput (fun _ ↦ false) ctx (List.replicate 16002 0) = none := by
    apply sedWriteOutput_eq_none hgathered.valid (by omega) hrefused
    rw [List.length_replicate]
    omega
  rw [run_append, hrun, Option.bind_some, run, step, hwrite]
  rfl

theorem not_faithful_refused : ¬ ∀ (next : ℕ → Bool) (transient : Bool) (events : List Event),
    Faithful next (initContext transient) events := by
  intro hall
  obtain ⟨ctx, hrun, -⟩ :=
    hall (fun _ ↦ false) true ((List.replicate 49 oneByte).flatten ++
      [.write (List.replicate 16002 0)])
  rw [run_refused] at hrun
  cases hrun

end Userland.ModSed
