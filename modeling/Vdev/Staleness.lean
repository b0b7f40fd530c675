import Mathlib.Data.List.TakeWhile
import Vdev.Nonce
import Vdev.SweepSafety

/-!
The record of a device tells which vdevd has added it. `vdev_device_put_metadata_item` writes
the nonce of an instance in hexadecimal, with a newline; `vdev_device_read_vdevd_instance` reads
as many bytes as a nonce has digits, through another path to the same file; and the sweep
compares C strings.
-/
namespace Vdev.Staleness

open CString FileTree SystemCalls CallEffects Paths Data Device Metadata Records Sweep SweepSafety
  Nonce

structure NonceBytes where
  bytes : List (BitVec 8)
  length_bytes : bytes.length = 32

/-- The text of a nonce, as the second loop of `vdev_config_make_instance_nonce` makes it. -/
def instanceStr (n : NonceBytes) : CStr := (n.bytes.map BitVec.toNat).flatMap binToHex

theorem instanceStr_injective {n₁ n₂ : NonceBytes} (h : instanceStr n₁ = instanceStr n₂) :
    n₁ = n₂ := by
  have hlt : ∀ n : NonceBytes, ∀ b ∈ n.bytes.map BitVec.toNat, b < 256 := by
    intro n b hb
    obtain ⟨v, _, rfl⟩ := List.mem_map.mp hb
    exact v.isLt
  have hbytes := flatMap_binToHex_injective (hlt n₁) (hlt n₂) h
  have hinj : Function.Injective (BitVec.toNat (w := 8)) := fun _ _ => BitVec.eq_of_toNat_eq
  obtain ⟨b₁, h₁⟩ := n₁
  obtain ⟨b₂, h₂⟩ := n₂
  cases (List.map_injective_iff.mpr hinj) hbytes
  rfl

theorem instanceStr_length (n : NonceBytes) : (instanceStr n).length = 64 := by
  have htwo : (fun b : ℕ => (binToHex b).length) = fun _ => 2 := rfl
  rw [instanceStr, List.length_flatMap, htwo, List.map_const', List.sum_replicate,
    List.length_map, n.length_bytes, smul_eq_mul]

/-- Each character is one of sixteen. -/
theorem mem_instanceStr {n : NonceBytes} {c : Char} (h : c ∈ instanceStr n) :
    ∃ d < 16, c = hexDigit d := by
  obtain ⟨b, hb, hc⟩ := List.mem_flatMap.mp h
  obtain ⟨v, _, rfl⟩ := List.mem_map.mp hb
  have hlt := v.isLt
  rw [binToHex] at hc
  rcases List.mem_cons.mp hc with rfl | hc
  · refine ⟨v.toNat >>> 4, ?_, rfl⟩
    rw [Nat.shiftRight_eq_div_pow]
    omega
  · refine ⟨v.toNat &&& 0xf, ?_, List.mem_singleton.mp hc⟩
    rw [show v.toNat &&& 0xf = v.toNat % 16 from Nat.and_two_pow_sub_one_eq_mod _ 4]
    omega

theorem newline_not_mem_instanceStr (n : NonceBytes) : '\n' ∉ instanceStr n := by
  intro h
  obtain ⟨d, hd, heq⟩ := mem_instanceStr h
  have hnone : ∀ d < 16, '\n' ≠ hexDigit d := by decide
  exact hnone d hd heq

theorem nul_not_mem_instanceStr (n : NonceBytes) : '\x00' ∉ instanceStr n := by
  intro h
  obtain ⟨d, hd, heq⟩ := mem_instanceStr h
  have hnone : ∀ d < 16, '\x00' ≠ hexDigit d := by decide
  exact hnone d hd heq

theorem untilNul_instanceStr (n : NonceBytes) : untilNul (instanceStr n) = instanceStr n := by
  refine List.takeWhile_eq_self_iff.mpr fun c hc => ?_
  simp only [ne_eq, decide_not, Bool.not_eq_eq_eq_not, Bool.not_true, decide_eq_false_iff_not]
  rintro rfl
  exact nul_not_mem_instanceStr n hc

/-- What a call that makes an entry works on is found again through each path with the
same components. -/
theorem resolve_of_target {T U : FS} {s s' : CStr} {l : Location} {n : Name}
    (h : target T s = .ok (l, .name n)) (hdirs : ∀ k, T.IsDir k → U.IsDir k)
    (hnames : names s' = names s) (hne : s' ≠ []) (hslash : slashed s' = false) :
    resolve U s' = .ok (n :: l) := by
  obtain ⟨hdir, _, hkept⟩ := target_eq_ok T s l n h
  have htarget := hkept U hdirs
  unfold target at htarget
  split_ifs at htarget with hnil
  rw [resolve, if_neg hne, hslash, hnames]
  cases hrev : (names s).reverse with
  | nil =>
    rw [hrev] at htarget
    cases htarget
  | cons c cs =>
    rw [hrev] at htarget
    dsimp only at htarget
    have hsplit : names s = cs.reverse ++ [c] := by
      rw [← List.reverse_reverse (names s), hrev, List.reverse_cons]
    cases hwalk : walk U [] cs.reverse with
    | error e =>
      rw [hwalk] at htarget
      cases htarget
    | ok k =>
      rw [hwalk] at htarget
      dsimp only at htarget
      obtain ⟨a, ha⟩ := hdirs l hdir
      split at htarget
      · cases htarget
      · cases htarget
      · obtain ⟨rfl, hlast⟩ := Prod.mk.inj (Except.ok.inj htarget)
        obtain ⟨hc, rfl⟩ := lastOf_eq_name c n hlast
        rw [if_neg (by decide), List.append_nil, hsplit, walk_append, hwalk]
        change walk U k [c] = _
        rw [walk, ha]
        dsimp only
        rw [dif_pos hc, walk]

theorem fullpath_ne_nil_right (root path : CStr) (h : path ≠ []) : fullpath root path ≠ [] := by
  by_cases hroot : root = []
  · rw [hroot]
    exact h
  · exact fullpath_ne_nil root path hroot

/-- The sweep reads what was last written to the record. -/
theorem readVdevdInstance_of_put (st : VdevState) (p value : CStr) (create : Bool) (mode : ℕ)
    (T U : FS)
    (h : putMetadataItem (metadataFullpath st.mountpoint p) paramInstance value create mode T =
      (0, U)) :
    readVdevdInstance st (fullpath st.mountpoint p) U = .ok ((value ++ "\n".toList).take 64) := by
  have hwrite : writeFile T (recordPath st p) (value ++ "\n".toList) create mode = .ok U := by
    unfold putMetadataItem at h
    split at h
    · rename_i e _
      exact absurd (congrArg Prod.fst h) e.rc_ne_zero
    · rename_i V hV
      cases h
      exact hV
  obtain ⟨n, l, m, htarget, hnodir, _, rfl, _⟩ := writeFile_eq_ok _ create mode hwrite
  obtain ⟨hdir, _, _⟩ := target_eq_ok T _ l n htarget
  have hdev : names (devPath st (fullpath st.mountpoint p)) = names p := by
    unfold devPath fullpath
    split_ifs with h₀ h₁ h₂
    · rw [List.drop_left]
    · rw [List.drop_left, names_slash]
    · obtain ⟨q, rfl⟩ := List.head?_eq_some_iff.mp h₂.2
      rw [List.drop_left, List.tail_cons, names_slash]
    · rw [List.drop_left]
  have hresolve : resolve (T.put n l (.leaf (.file m (value ++ "\n".toList))))
      (fullpath (fullpath st.mountpoint (fullpath (metadataPrefix ++ "/dev".toList)
        (devPath st (fullpath st.mountpoint p)))) paramInstance) = .ok (n :: l) := by
    refine resolve_of_target htarget (fun k hk => hk.put n l _) ?_ ?_ ?_
    · rw [recordPath, metadataFullpath]
      have hmeta : names (metadataPrefix ++ "/dev".toList) = [nameMetadata.val, nameDev.val] := by
        decide
      simp only [names_fullpath_any, hmeta, names_metadata, hdev]
    · exact fullpath_ne_nil_right _ _ (by decide)
    · rw [slashed_fullpath _ _ (by decide) (by decide)]
      decide
  rw [readVdevdInstance, readFile, stat, hresolve]
  dsimp only
  rw [T.get_put n l _ hdir hnodir, if_pos rfl]

/-- Whether a record is stale is decided by the nonces and by nothing else. The string that the
sweep reads is the text of the nonce that was written, and equals that of another nonce
only when the two nonces are one. -/
theorem stale_iff (st : VdevState) (p : CStr) (n₁ n₂ : NonceBytes) (create : Bool) (mode : ℕ)
    (T U : FS)
    (h : putMetadataItem (metadataFullpath st.mountpoint p) paramInstance (instanceStr n₁) create
      mode T = (0, U)) :
    (∃ instance_str, readVdevdInstance st (fullpath st.mountpoint p) U = .ok instance_str ∧
      untilNul instance_str = instanceStr n₁ ∧
      (untilNul (instanceStr n₂) = untilNul instance_str ↔ n₁ = n₂)) ∧
    (instanceStr n₁ = instanceStr n₂ → n₁ = n₂) ∧ (instanceStr n₁).length = 64 ∧
    '\n' ∉ instanceStr n₁ ∧ '\x00' ∉ instanceStr n₁ := by
  have hread := readVdevdInstance_of_put st p (instanceStr n₁) create mode T U h
  rw [List.take_append_of_le_length (by rw [instanceStr_length]),
    List.take_of_length_le (by rw [instanceStr_length])] at hread
  refine ⟨⟨_, hread, untilNul_instanceStr n₁, ?_⟩, instanceStr_injective, instanceStr_length n₁,
    newline_not_mem_instanceStr n₁, nul_not_mem_instanceStr n₁⟩
  rw [untilNul_instanceStr, untilNul_instanceStr]
  constructor
  · exact fun heq => (instanceStr_injective heq).symm
  · rintro rfl
    rfl

def zeroNonce : NonceBytes := ⟨List.replicate 32 0, List.length_replicate⟩
def onesNonce : NonceBytes := ⟨List.replicate 32 0xff, List.length_replicate⟩

def recordDir : FS := bareTree.put sdaName (metadataRoot [nameDev]) (.dir 0o755)

theorem stale_iff_zero_ones :
    ∃ U instance_str, readVdevdInstance bareState "/dev/sda".toList U = .ok instance_str ∧
      untilNul instance_str = instanceStr zeroNonce ∧
      untilNul (instanceStr onesNonce) ≠ untilNul instance_str := by
  have hrc : (putMetadataItem (metadataFullpath bareState.mountpoint "sda".toList) paramInstance
      (instanceStr zeroNonce) true 0o644 recordDir).1 = 0 := by decide +kernel
  obtain ⟨⟨text, hread, htext, hiff⟩, _⟩ := stale_iff bareState "sda".toList zeroNonce onesNonce
    true 0o644 recordDir _ (Prod.ext hrc rfl)
  have hne : zeroNonce ≠ onesNonce := by
    intro heq
    have hbytes := congrArg NonceBytes.bytes heq
    revert hbytes
    decide
  exact ⟨_, text, hread, htext, fun heq => hne (hiff.mp heq)⟩

end Vdev.Staleness
