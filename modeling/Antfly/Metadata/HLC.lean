import Mathlib.Data.List.Basic
import Mathlib.Data.List.Sort
import Mathlib.Order.Defs.LinearOrder

/-!
A timestamp packs the wall clock in milliseconds, a node id and a counter into 64 bits.  The wall
clock keeps 36 bits, which is a little over two years and not the two thousand that the format is
described with, so its upper bits are lost.  The physical time of a clock never goes backward, and
its timestamps grow as long as their 36 bits grow with it.
-/

namespace Antfly

open List

/-- `HLC`, without its lock and its clock. -/
structure HLC where
  nodeID : Nat
  logical : Nat
  lastPhysical : Nat

def hlcLogicalMask : Nat := 1048575

def hlcNodeIDMask : Nat := 255

namespace HLC

/-- Physical time, node id and logical counter, packed into 64 bits. -/
def value (h : HLC) : Nat :=
  ((h.lastPhysical <<< 28) ||| (h.nodeID <<< 20) ||| h.logical) % 18446744073709551616

/-- `HLC.Now` at `nowMs` milliseconds; `laterMs` is the time it waits for when the logical counter
runs over. -/
def next (h : HLC) (nowMs laterMs : Nat) : HLC :=
  if h.lastPhysical < nowMs then { h with lastPhysical := nowMs, logical := 0 }
  else if hlcLogicalMask < h.logical + 1 then { h with lastPhysical := laterMs, logical := 0 }
  else { h with logical := h.logical + 1 }

def new (nodeID : Nat) : HLC := ⟨nodeID &&& hlcNodeIDMask, 0, 0⟩

/-- The readings the overflow loop takes end with the first one after `last`. -/
def waitPast (last : Nat) : List Nat → Option Nat
  | [] => none
  | nowMs :: rest =>
    if last < nowMs then
      if rest = [] then some nowMs else none
    else waitPast last rest

/-- `HLC.Now`, given all the clock readings it takes. -/
def now (h : HLC) : List Nat → Option HLC
  | [] => none
  | nowMs :: rest =>
    if ¬ h.lastPhysical < nowMs ∧ hlcLogicalMask < h.logical + 1 then
      (waitPast h.lastPhysical rest).map (h.next nowMs)
    else if rest = [] then some (h.next nowMs 0)
    else none

/-- A sequence of calls, each with its clock readings, the timestamps they return and the clock
afterwards. -/
inductive Calls (h₀ : HLC) : List (List Nat) → List Nat → HLC → Prop where
  | none : Calls h₀ [] [] h₀
  | call {calls : List (List Nat)} {values : List Nat} {h h' : HLC} {readings : List Nat} :
      Calls h₀ calls values h → h.now readings = some h' →
      Calls h₀ (calls ++ [readings]) (values ++ [h'.value]) h'

/-- The latest wall clock reading. -/
def latest (calls : List (List Nat)) : Nat := calls.flatten.foldl max 0

/-- Whenever a call sees the clock past the readings of the calls before it, the low 36 bits of the
latest reading grow. -/
def NeverWraps (calls : List (List Nat)) : Prop :=
  ∀ before readings after, calls = before ++ readings :: after → before ≠ [] →
    latest before < latest (before ++ [readings]) →
    latest before % 68719476736 < latest (before ++ [readings]) % 68719476736

/-- The fields of a clock fit their bits. -/
structure Fits (h : HLC) : Prop where
  nodeID : h.nodeID ≤ hlcNodeIDMask
  logical : h.logical ≤ hlcLogicalMask

variable {h h' : HLC} {readings : List Nat}

theorem value_eq (hf : h.Fits) :
    h.value = h.lastPhysical % 68719476736 * 268435456 + h.nodeID * 1048576 + h.logical := by
  have hnode : h.nodeID ≤ 255 := hf.nodeID
  have hlogical : h.logical ≤ 1048575 := hf.logical
  have hlow : h.nodeID <<< 20 ||| h.logical = h.nodeID * 1048576 + h.logical := by
    have hor := Nat.shiftLeft_add_eq_or_of_lt (i := 20) (b := h.logical) (by omega) h.nodeID
    rw [← hor, Nat.shiftLeft_eq]
  have hhigh : h.lastPhysical <<< 28 ||| (h.nodeID <<< 20 ||| h.logical) =
      h.lastPhysical * 268435456 + (h.nodeID * 1048576 + h.logical) := by
    have hor := Nat.shiftLeft_add_eq_or_of_lt (i := 28) (b := h.nodeID * 1048576 + h.logical)
      (by omega) h.lastPhysical
    rw [hlow, ← hor, Nat.shiftLeft_eq]
  have hvalue : h.value =
      (h.lastPhysical * 268435456 + (h.nodeID * 1048576 + h.logical)) % 18446744073709551616 := by
    rw [value, Nat.or_assoc, hhigh]
  omega

theorem value_ne (hf : h.Fits) (hf' : h'.Fits) (hnode : h.nodeID ≠ h'.nodeID) :
    h.value ≠ h'.value := by
  have hid : h.nodeID ≤ 255 := hf.nodeID
  have hid' : h'.nodeID ≤ 255 := hf'.nodeID
  have hlogical : h.logical ≤ 1048575 := hf.logical
  have hlogical' : h'.logical ≤ 1048575 := hf'.logical
  rw [value_eq hf, value_eq hf']
  omega

theorem waitPast_spec {last later : Nat} (h : waitPast last readings = some later) :
    last < later ∧ ∀ m, last ≤ m → readings.foldl max m = max m later := by
  induction readings with
  | nil => cases h
  | cons nowMs rest ih =>
    simp only [waitPast] at h
    split at h
    · rename_i hlt
      split at h
      · rename_i hrest
        cases h
        exact ⟨hlt, fun m _ => by simp [hrest]⟩
      · cases h
    · rename_i hle
      obtain ⟨hlt, hfold⟩ := ih h
      refine ⟨hlt, fun m hm => ?_⟩
      rw [foldl_cons, max_eq_left (by omega), hfold m hm]

/-- A call moves the physical time to the latest reading; it resets the counter when the time moves
and counts on when it does not. -/
theorem now_spec (hcall : h.now readings = some h') :
    h'.nodeID = h.nodeID ∧ h'.lastPhysical = readings.foldl max h.lastPhysical ∧
      ((h.lastPhysical < h'.lastPhysical ∧ h'.logical = 0) ∨
        (h.lastPhysical = h'.lastPhysical ∧ h'.logical = h.logical + 1 ∧
          h'.logical ≤ hlcLogicalMask)) := by
  cases readings with
  | nil => cases hcall
  | cons nowMs rest =>
    simp only [now] at hcall
    split at hcall
    · rename_i hwait
      obtain ⟨later, hlater, heq⟩ := Option.map_eq_some_iff.mp hcall
      obtain ⟨hlt, hfold⟩ := waitPast_spec hlater
      rw [next, if_neg hwait.1, if_pos hwait.2] at heq
      subst heq
      have hmax : max h.lastPhysical nowMs = h.lastPhysical := max_eq_left (by omega)
      refine ⟨rfl, ?_, .inl ⟨hlt, rfl⟩⟩
      rw [foldl_cons, hmax, hfold _ (le_refl _), max_eq_right hlt.le]
    · rename_i hgo
      split at hcall
      · rename_i hrest
        cases hcall
        subst hrest
        by_cases hlt : h.lastPhysical < nowMs
        · rw [next, if_pos hlt]
          exact ⟨rfl, by simp [max_eq_right hlt.le], .inl ⟨hlt, rfl⟩⟩
        · have hcount : ¬ hlcLogicalMask < h.logical + 1 := fun hover => hgo ⟨hlt, hover⟩
          rw [next, if_neg hlt, if_neg hcount]
          have hmax : max h.lastPhysical nowMs = h.lastPhysical := max_eq_left (by omega)
          exact ⟨rfl, by simp [hmax], .inr ⟨rfl, rfl, by simpa using hcount⟩⟩
      · cases hcall

theorem Fits.now (hf : h.Fits) (hcall : h.now readings = some h') : h'.Fits := by
  obtain ⟨hnode, -, hlogical⟩ := now_spec hcall
  refine ⟨hnode ▸ hf.nodeID, ?_⟩
  rcases hlogical with ⟨-, hzero⟩ | ⟨-, -, hle⟩
  · omega
  · exact hle

/-- The timestamp grows with a call unless the physical time moves without its low bits. -/
theorem value_lt_iff (hf : h.Fits) (hcall : h.now readings = some h') :
    h.value < h'.value ↔ (h.lastPhysical < h'.lastPhysical →
      h.lastPhysical % 68719476736 < h'.lastPhysical % 68719476736) := by
  obtain ⟨hnode, -, hlogical⟩ := now_spec hcall
  have hid : h.nodeID ≤ 255 := hf.nodeID
  have hcount : h.logical ≤ 1048575 := hf.logical
  rw [value_eq hf, value_eq (hf.now hcall), hnode]
  rcases hlogical with ⟨hlt, hzero⟩ | ⟨heq, hnext, -⟩
  · omega
  · omega

theorem fits_new (nodeID : Nat) : (new nodeID).Fits where
  nodeID := Nat.and_le_right
  logical := Nat.zero_le _

section Calls

variable {h₀ h : HLC} {calls : List (List Nat)} {values : List Nat}

theorem latest_append (calls : List (List Nat)) (readings : List Nat) :
    latest (calls ++ [readings]) = readings.foldl max (latest calls) := by
  simp [latest]

theorem Calls.spec (h₀fits : h₀.Fits) (hzero : h₀.lastPhysical = 0)
    (hcalls : Calls h₀ calls values h) :
    h.Fits ∧ h.nodeID = h₀.nodeID ∧ h.lastPhysical = latest calls ∧
      (calls = [] ↔ values = []) ∧
      ∀ v ∈ values, ∃ h' : HLC, h'.Fits ∧ h'.nodeID = h₀.nodeID ∧ v = h'.value := by
  induction hcalls with
  | none =>
    refine ⟨h₀fits, rfl, hzero, by simp, fun v hv => by cases hv⟩
  | call _ hcall ih =>
    obtain ⟨hfits, hnode, hlatest, -, hvalues⟩ := ih
    obtain ⟨hnode', hphysical, -⟩ := now_spec hcall
    have hid := hnode'.trans hnode
    refine ⟨hfits.now hcall, hid, ?_, by simp, fun v hv => ?_⟩
    · rw [hphysical, hlatest, latest_append]
    · rcases mem_append.mp hv with hv | hv
      · exact hvalues v hv
      · exact ⟨_, hfits.now hcall, hid, mem_singleton.mp hv⟩

theorem neverWraps_append (calls : List (List Nat)) (readings : List Nat) :
    NeverWraps (calls ++ [readings]) ↔ NeverWraps calls ∧
      (calls ≠ [] → latest calls < latest (calls ++ [readings]) →
        latest calls % 68719476736 < latest (calls ++ [readings]) % 68719476736) := by
  constructor
  · intro hall
    refine ⟨fun before r after heq => hall before r (after ++ [readings]) (by simp [heq]), ?_⟩
    exact hall calls readings [] rfl
  · rintro ⟨hcalls, hlast⟩ before r after heq
    rcases eq_nil_or_concat after with rfl | ⟨after', last, rfl⟩
    · obtain ⟨rfl, hr⟩ := append_inj' heq rfl
      cases hr
      exact hlast
    · have heq' : calls ++ [readings] = (before ++ r :: after') ++ [last] := by
        simpa using heq
      exact hcalls before r after' (append_inj' heq' rfl).1

/-- The values of a clock that never wraps so far all lie at or below the current one. -/
theorem Calls.pairwise_iff (h₀fits : h₀.Fits) (hzero : h₀.lastPhysical = 0)
    (hcalls : Calls h₀ calls values h) :
    (values.Pairwise (· < ·) ↔ NeverWraps calls) ∧
      (values.Pairwise (· < ·) → ∀ v ∈ values, v ≤ h.value) ∧
      (values ≠ [] → h.value ∈ values) := by
  induction hcalls with
  | none =>
    refine ⟨⟨fun _ before r after heq => ?_, fun _ => List.Pairwise.nil⟩,
      fun _ v hv => (by cases hv), fun hne => absurd rfl hne⟩
    simp at heq
  | @call calls values h h' readings hprev hcall ih =>
    obtain ⟨hiff, hle, hmem⟩ := ih
    obtain ⟨hfits, -, hlatest, hempty, -⟩ := hprev.spec h₀fits hzero
    obtain ⟨-, hphysical, -⟩ := now_spec hcall
    have hgrows := value_lt_iff hfits hcall
    rw [hlatest, hphysical, hlatest, ← latest_append] at hgrows
    have hpairwise : (values ++ [h'.value]).Pairwise (· < ·) ↔
        values.Pairwise (· < ·) ∧ (calls ≠ [] → h.value < h'.value) := by
      rw [pairwise_append]
      constructor
      · rintro ⟨hvalues, -, hlast⟩
        refine ⟨hvalues, fun hne => ?_⟩
        exact hlast _ (hmem fun hnil => hne (hempty.mpr hnil)) _ (mem_singleton_self _)
      · rintro ⟨hvalues, hlast⟩
        refine ⟨hvalues, pairwise_singleton _ _, fun v hv w hw => ?_⟩
        rw [mem_singleton.mp hw]
        have hne : calls ≠ [] := fun hnil => by simp [hempty.mp hnil] at hv
        exact (hle hvalues v hv).trans_lt (hlast hne)
    refine ⟨?_, fun hall v hv => ?_, fun _ => by simp⟩
    · rw [hpairwise, neverWraps_append, hiff, hgrows]
    · obtain ⟨hvalues, hlast⟩ := hpairwise.mp hall
      rcases mem_append.mp hv with hv | hv
      · have hne : calls ≠ [] := fun hnil => by simp [hempty.mp hnil] at hv
        exact ((hle hvalues v hv).trans_lt (hlast hne)).le
      · exact (mem_singleton.mp hv).le

end Calls

/-- The timestamps of a clock grow and differ from those of every clock with another node id
exactly when the low 36 bits of its wall clock never wrap. -/
theorem timestamps_grow_iff {nodeID : Nat} {calls : List (List Nat)} {values : List Nat} {h : HLC}
    (hcalls : Calls (new nodeID) calls values h) :
    (values.Pairwise (· < ·) ∧
      ∀ nodeID' calls' values' h', Calls (new nodeID') calls' values' h' →
        (new nodeID').nodeID ≠ (new nodeID).nodeID → ∀ v ∈ values, v ∉ values') ↔
      NeverWraps calls := by
  rw [(hcalls.pairwise_iff (fits_new nodeID) rfl).1]
  refine ⟨And.left, fun hwraps => ⟨hwraps, ?_⟩⟩
  intro nodeID' calls' values' h' hcalls' hnode v hv hv'
  obtain ⟨-, -, -, -, hvalues⟩ := hcalls.spec (fits_new nodeID) rfl
  obtain ⟨-, -, -, -, hvalues'⟩ := hcalls'.spec (fits_new nodeID') rfl
  obtain ⟨k, hk, hkid, rfl⟩ := hvalues v hv
  obtain ⟨k', hk', hkid', heq⟩ := hvalues' _ hv'
  exact value_ne hk hk' (by rw [hkid, hkid']; exact hnode.symm) heq

/-- Two milliseconds of August 2026, between which the low 36 bits start again. -/
theorem timestamp_wraps :
    ∃ values h, Calls (new 1) [[1786706395135], [1786706395136]] values h ∧
      1786706395136 < 2000 * 365 * 86400000 ∧ ¬ values.Pairwise (· < ·) := by
  have hfirst : Calls (new 1) ([] ++ [[1786706395135]]) _ _ := Calls.call Calls.none rfl
  have hsecond : Calls (new 1) ([[1786706395135]] ++ [[1786706395136]]) _ _ :=
    Calls.call hfirst rfl
  exact ⟨_, _, hsecond, by decide, by decide⟩

/-- A clock that repeats, goes back and jumps ahead within the 36 bits. -/
theorem timestamps_grow_sample :
    ∃ values h, Calls (new 1) [[1760000000000], [1760000000000], [1759999999000]] values h ∧
      values.Pairwise (· < ·) := by
  have hfirst : Calls (new 1) ([] ++ [[1760000000000]]) _ _ := Calls.call Calls.none rfl
  have hsecond : Calls (new 1) ([[1760000000000]] ++ [[1760000000000]]) _ _ :=
    Calls.call hfirst rfl
  have hthird : Calls (new 1) ([[1760000000000], [1760000000000]] ++ [[1759999999000]]) _ _ :=
    Calls.call hsecond rfl
  refine ⟨_, _, hthird, ((timestamps_grow_iff hthird).mpr ?_).1⟩
  have hone : NeverWraps ([] ++ [[1760000000000]]) :=
    (neverWraps_append _ _).mpr ⟨fun before r after heq => by simp at heq, fun h => absurd rfl h⟩
  have htwo := (neverWraps_append _ [1760000000000]).mpr ⟨hone, fun _ => by decide⟩
  exact (neverWraps_append _ [1759999999000]).mpr ⟨htwo, fun _ => by decide⟩

end HLC

end Antfly
