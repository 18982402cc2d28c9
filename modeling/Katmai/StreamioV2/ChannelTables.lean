import Katmai.Foundation.EventRun
import Katmai.StreamioV2.ClientEntry
import Mathlib.Data.Rat.Floor

/-!
# The channel tables of a `streamio_v2` server

The sizes of the channels are kept in four tables of `MAXIMUM_STIOV2_SERVICES` ints that follow one
another in the record of the server. `stiov2_set_parameter` lets a channel through that is equal to
that number, where every sibling asks for a smaller one: the four values then go to the first entry
of the table behind, and the last of them behind the tables.

A call puts the sizes of a `Parameter` into the entries of its channel
(`ServerPd.setParameter_of_pass`) or does nothing (`ServerPd.setParameter_of_not_pass`). So the
tables hold the sizes of a `Parameter` for each channel as long as no call that passes the other
checks names the channel past the last (`channelsKept_iff`).
-/

set_option autoImplicit false
set_option relaxedAutoImplicit false

namespace Katmai.StreamioV2

open Foundation

/-! ### The record of the server -/

/-- `MAXIMUM_STIOV2_SERVICES`. -/
def maximumStiov2Services : ℤ := 4

/-- `STIOV2_MAX_TRANS_BUFSIZE`. -/
def stiov2MaxTransBufsize : ℤ := 32768

/-- `DEFAULT_DISKIO_BUFFER_FAVIOR`. -/
def defaultDiskioBufferFavior : ℤ := 1048576

/-- `STIOV2_MAX_PACKET_MAP`, the number of flags in a request for data. -/
def stiov2MaxPacketMap : ℤ := 23

/-- The four tables. -/
inductive Table
  | diskBufsize
  | netBufsize
  | disknetFact
  | packetMap
  deriving DecidableEq

/-- Where a table starts, in ints from the start of the first. -/
def Table.start : Table → ℤ
  | .diskBufsize => 0
  | .netBufsize => 4
  | .disknetFact => 8
  | .packetMap => 12

theorem Table.start_eq (table : Table) : ∃ k, table.start = 4 * k ∧ 0 ≤ k ∧ k ≤ 3 := by
  cases table
  · exact ⟨0, rfl, by decide, by decide⟩
  · exact ⟨1, rfl, by decide, by decide⟩
  · exact ⟨2, rfl, by decide, by decide⟩
  · exact ⟨3, rfl, by decide, by decide⟩

/-- `struct streamming_io_v2_server_pd_t` from `already_started` on: the ints from the start of
`disk_bufsize`, and which entries of which tables have been assigned so far. -/
structure ServerPd where
  alreadyStarted : Bool
  words : ℤ → ℤ
  written : List (Table × ℤ)

namespace ServerPd

/-- The int at an index of a table. -/
def entry (pd : ServerPd) (table : Table) (i : ℤ) : ℤ :=
  pd.words (table.start + i)

/-- An assignment to an index of a table. -/
def put (pd : ServerPd) (table : Table) (i value : ℤ) : ServerPd :=
  { pd with
    words := Function.update pd.words (table.start + i) value
    written := pd.written ++ [(table, i)] }

/-- `stiov2_start`. -/
def start (pd : ServerPd) : ServerPd :=
  { pd with alreadyStarted := true }

/-- `stiov2_set_parameter`. -/
def setParameter (pd : ServerPd) (channel diskbuf netbuf : ℤ) : ServerPd × ℤ :=
  if pd.alreadyStarted then (pd, 0)
  else if channel < 0 ∨ channel > maximumStiov2Services then (pd, 0)
  else if diskbuf < 4096 ∨ diskbuf > defaultDiskioBufferFavior then (pd, 0)
  else if netbuf < 4096 ∨ netbuf > stiov2MaxTransBufsize then (pd, 0)
  else if netbuf.tmod 1024 ≠ 0 then (pd, 0)
  else if diskbuf.tmod netbuf ≠ 0 then (pd, 0)
  else
    let pd := pd.put .diskBufsize channel diskbuf
    let pd := pd.put .netBufsize channel netbuf
    let pd := pd.put .disknetFact channel (diskbuf.tdiv netbuf)
    (pd.put .packetMap channel
      (netbuf.tdiv carryDatasize + if netbuf.tmod carryDatasize > 0 then 1 else 0), 1)

end ServerPd

/-- `new_streamming_io_v2_server`, in memory that held `memory`. -/
def newServerPd (memory : ℤ → ℤ) : ServerPd :=
  ([0, 1, 2, 3] : List ℤ).foldl
    (fun pd i ↦
      let pd := pd.put .diskBufsize i 1048576
      let pd := pd.put .netBufsize i 32768
      let pd := pd.put .disknetFact i 32
      pd.put .packetMap i 23)
    ⟨false, memory, []⟩

/-- What a program does with a server before it ends. -/
inductive SetupCall
  | start
  | setParameter (channel diskbuf netbuf : ℤ)

/-- The server after a call. -/
def setupCall (pd : ServerPd) : SetupCall → Option ServerPd
  | .start => some pd.start
  | .setParameter channel diskbuf netbuf => some (pd.setParameter channel diskbuf netbuf).1

/-! ### What a call is to keep -/

/-- The sizes of a channel belong together and its packets have a flag each in a request. -/
structure ChannelFits (pd : ServerPd) (c : ℤ) : Prop where
  fact_mul_net : pd.entry .disknetFact c * pd.entry .netBufsize c = pd.entry .diskBufsize c
  one_le_fact : 1 ≤ pd.entry .disknetFact c
  map_eq : pd.entry .packetMap c = ⌈(pd.entry .netBufsize c : ℚ) / carryDatasize⌉
  map_le : pd.entry .packetMap c ≤ stiov2MaxPacketMap

/-- The tables of a server that was made in memory that held `memory`: only entries of channels
have been assigned, nothing beside the tables has changed, and the sizes of each channel fit. -/
structure TablesFit (memory : ℤ → ℤ) (pd : ServerPd) : Prop where
  written_lt : ∀ place ∈ pd.written, 0 ≤ place.2 ∧ place.2 < maximumStiov2Services
  beside_eq : ∀ k, k < 0 ∨ 16 ≤ k → pd.words k = memory k
  channelFits : ∀ c, 0 ≤ c → c < maximumStiov2Services → ChannelFits pd c

/-- A call that is refused changes nothing, and after a call the tables fit. -/
def CallKeeps (memory : ℤ → ℤ) (pd : ServerPd) : SetupCall → Prop
  | .start => TablesFit memory pd.start
  | .setParameter channel diskbuf netbuf =>
    ((pd.setParameter channel diskbuf netbuf).2 = 0 →
      (pd.setParameter channel diskbuf netbuf).1 = pd) ∧
    TablesFit memory (pd.setParameter channel diskbuf netbuf).1

/-- The tables fit in a new server, and every call of the run keeps that. -/
def ChannelsKept (memory : ℤ → ℤ) (calls : List SetupCall) : Prop :=
  TablesFit memory (newServerPd memory) ∧
    Meets setupCall (CallKeeps memory) (newServerPd memory) calls

/-- The sizes pass the checks of `stiov2_set_parameter`. -/
def SizesPass (diskbuf netbuf : ℤ) : Prop :=
  (4096 ≤ diskbuf ∧ diskbuf ≤ defaultDiskioBufferFavior) ∧
    (4096 ≤ netbuf ∧ netbuf ≤ stiov2MaxTransBufsize) ∧ netbuf.tmod 1024 = 0 ∧
    diskbuf.tmod netbuf = 0

/-- The call is not one for the channel past the last, with sizes that pass, to a server that has
not been started. -/
def WithinChannels (pd : ServerPd) : SetupCall → Prop
  | .start => True
  | .setParameter channel diskbuf netbuf =>
    ¬(pd.alreadyStarted = false ∧ channel = maximumStiov2Services ∧ SizesPass diskbuf netbuf)

/-! ### The sizes that are put into the tables -/

namespace Parameter

variable (p : Parameter)

/-- What the tables hold for a channel with these sizes. -/
def entry : Table → ℤ
  | .diskBufsize => p.diskBufsize
  | .netBufsize => p.netBufsize
  | .disknetFact => p.disknetFact
  | .packetMap => p.packetMap

theorem entry_disknetFact :
    p.entry .disknetFact = (p.entry .diskBufsize).tdiv (p.entry .netBufsize) :=
  Int.ofNat_tdiv p.diskBufsize p.netBufsize

theorem entry_packetMap :
    p.entry .packetMap = (p.entry .netBufsize).tdiv carryDatasize +
      if (p.entry .netBufsize).tmod carryDatasize > 0 then 1 else 0 := by
  unfold entry packetMap
  rw [← Int.ofNat_tdiv, ← Int.ofNat_tmod]
  split_ifs with hnat hint hint
  · exact Int.natCast_add _ _
  · omega
  · omega
  · exact Int.natCast_add _ _

theorem fact_mul_net :
    p.entry .disknetFact * p.entry .netBufsize = p.entry .diskBufsize := by
  unfold entry
  rw [← Int.natCast_mul, p.disk_eq]

theorem packetMap_eq_ceil : (p.packetMap : ℤ) = ⌈(p.netBufsize : ℚ) / carryDatasize⌉ := by
  have hceil : 1439 * p.packetMap < p.netBufsize + 1439 ∧ p.netBufsize ≤ 1439 * p.packetMap := by
    unfold packetMap carryDatasize
    split_ifs <;> omega
  have hpos : (0 : ℚ) < carryDatasize := by
    norm_num [carryDatasize]
  rw [eq_comm, Int.ceil_eq_iff, lt_div_iff₀ hpos, div_le_iff₀ hpos]
  constructor
  · have hlt : (1439 * p.packetMap : ℚ) < p.netBufsize + 1439 := by
      exact_mod_cast hceil.1
    push_cast [carryDatasize]
    linarith
  · have hle : (p.netBufsize : ℚ) ≤ 1439 * p.packetMap := by
      exact_mod_cast hceil.2
    push_cast [carryDatasize]
    linarith

theorem packetMap_le : (p.packetMap : ℤ) ≤ stiov2MaxPacketMap := by
  have hnet := p.net_le
  unfold packetMap carryDatasize stiov2MaxPacketMap
  split_ifs <;> omega

end Parameter

/-- Sizes that pass the checks are those of a `Parameter`. -/
theorem SizesPass.exists_parameter {diskbuf netbuf : ℤ} (hpass : SizesPass diskbuf netbuf) :
    ∃ p, stiov2SetParameter diskbuf.toNat netbuf.toNat = some p ∧ (p.diskBufsize : ℤ) = diskbuf ∧
      (p.netBufsize : ℤ) = netbuf := by
  obtain ⟨⟨hdisk, hdisk'⟩, ⟨hnet, hnet'⟩, hmod, hfact⟩ := hpass
  unfold defaultDiskioBufferFavior at hdisk'
  unfold stiov2MaxTransBufsize at hnet'
  obtain ⟨disk, rfl⟩ := Int.eq_ofNat_of_zero_le (show 0 ≤ diskbuf by omega)
  obtain ⟨net, rfl⟩ := Int.eq_ofNat_of_zero_le (show 0 ≤ netbuf by omega)
  have hmodNat : net % 1024 = 0 := by
    rwa [← Int.ofNat_inj, Int.ofNat_tmod]
  have hfactNat : disk % net = 0 := by
    rwa [← Int.ofNat_inj, Int.ofNat_tmod]
  refine ⟨⟨disk, net, by omega, by omega, by omega, by omega, hmodNat, hfactNat⟩, ?_, rfl, rfl⟩
  rw [stiov2SetParameter, Int.toNat_natCast, Int.toNat_natCast, dif_pos ⟨by omega, by omega⟩,
    dif_pos ⟨by omega, by omega⟩, dif_pos hmodNat, dif_pos hfactNat]

namespace ServerPd

variable (pd : ServerPd)

/-- The four assignments for a channel. -/
def putParameter (c : ℤ) (p : Parameter) : ServerPd :=
  (((pd.put .diskBufsize c (p.entry .diskBufsize)).put .netBufsize c (p.entry .netBufsize)).put
    .disknetFact c (p.entry .disknetFact)).put .packetMap c (p.entry .packetMap)

/-- A call for the channel past the last passes like one for a channel. -/
theorem setParameter_of_pass {channel diskbuf netbuf : ℤ} (hstarted : pd.alreadyStarted = false)
    (hc : 0 ≤ channel) (hle : channel ≤ maximumStiov2Services) (hpass : SizesPass diskbuf netbuf) :
    ∃ p, stiov2SetParameter diskbuf.toNat netbuf.toNat = some p ∧
      pd.setParameter channel diskbuf netbuf = (pd.putParameter channel p, 1) := by
  obtain ⟨p, hp, rfl, rfl⟩ := hpass.exists_parameter
  obtain ⟨hdisk, hnet, hmod, hfact⟩ := hpass
  refine ⟨p, hp, ?_⟩
  rw [setParameter, if_neg (by simp [hstarted]), if_neg (by omega), if_neg (by omega),
    if_neg (by omega), if_neg (not_not.mpr hmod), if_neg (not_not.mpr hfact), putParameter,
    p.entry_disknetFact, p.entry_packetMap]
  rfl

/-- Every other call is refused, without any change. -/
theorem setParameter_of_not_pass {channel diskbuf netbuf : ℤ}
    (hnot : ¬(pd.alreadyStarted = false ∧ (0 ≤ channel ∧ channel ≤ maximumStiov2Services) ∧
      SizesPass diskbuf netbuf)) : pd.setParameter channel diskbuf netbuf = (pd, 0) := by
  unfold setParameter
  split_ifs with hstarted hchannel hdisk hnet hmod hfact
  any_goals rfl
  all_goals
    have hsizes : SizesPass diskbuf netbuf :=
      ⟨by omega, by omega, not_not.mp hmod, not_not.mp hfact⟩
    exact absurd ⟨Bool.eq_false_of_not_eq_true hstarted, by omega, hsizes⟩ hnot

theorem written_putParameter (c : ℤ) (p : Parameter) :
    (pd.putParameter c p).written =
      pd.written ++ [(.diskBufsize, c), (.netBufsize, c), (.disknetFact, c), (.packetMap, c)] := by
  simp only [putParameter, put, List.append_assoc, List.cons_append, List.nil_append]

/-- The assignments for a channel change the four entries of the channel. -/
theorem words_putParameter {c k : ℤ} (p : Parameter) (hk : ∀ table : Table, k ≠ table.start + c) :
    (pd.putParameter c p).words k = pd.words k := by
  simp only [putParameter, put]
  rw [Function.update_of_ne (hk .packetMap), Function.update_of_ne (hk .disknetFact),
    Function.update_of_ne (hk .netBufsize), Function.update_of_ne (hk .diskBufsize)]

variable {pd}

theorem entry_putParameter_self (c : ℤ) (p : Parameter) (table : Table) :
    (pd.putParameter c p).entry table c = p.entry table := by
  cases table <;> simp [entry, putParameter, put, Table.start]

/-- The entries of the other channels stay. -/
theorem entry_putParameter_of_ne {c i : ℤ} (hc : 0 ≤ c ∧ c < maximumStiov2Services)
    (hi : 0 ≤ i ∧ i < maximumStiov2Services) (hne : i ≠ c) (p : Parameter) (table : Table) :
    (pd.putParameter c p).entry table i = pd.entry table i := by
  unfold maximumStiov2Services at hc hi
  refine pd.words_putParameter p fun other ↦ ?_
  obtain ⟨k, hk⟩ := table.start_eq
  obtain ⟨k', hk'⟩ := other.start_eq
  omega

end ServerPd

/-! ### The tables hold the sizes of a parameter for each channel -/

/-- Only entries of channels have been assigned, nothing beside the tables has changed, and the
entries of each channel are those of a `Parameter`. -/
structure HoldsParameters (memory : ℤ → ℤ) (pd : ServerPd) : Prop where
  written_lt : ∀ place ∈ pd.written, 0 ≤ place.2 ∧ place.2 < maximumStiov2Services
  beside_eq : ∀ k, k < 0 ∨ 16 ≤ k → pd.words k = memory k
  holds : ∀ c, 0 ≤ c → c < maximumStiov2Services →
    ∃ p : Parameter, ∀ table, pd.entry table c = p.entry table

variable {memory : ℤ → ℤ} {pd : ServerPd}

theorem HoldsParameters.tablesFit (hholds : HoldsParameters memory pd) : TablesFit memory pd where
  written_lt := hholds.written_lt
  beside_eq := hholds.beside_eq
  channelFits c hc hlt := by
    obtain ⟨p, hp⟩ := hholds.holds c hc hlt
    constructor
    · rw [hp, hp, hp]
      exact p.fact_mul_net
    · rw [hp]
      exact Int.ofNat_le.mpr p.fact_pos
    · rw [hp, hp]
      exact p.packetMap_eq_ceil
    · rw [hp]
      exact p.packetMap_le

theorem HoldsParameters.start (hholds : HoldsParameters memory pd) :
    HoldsParameters memory pd.start :=
  ⟨hholds.written_lt, hholds.beside_eq, hholds.holds⟩

/-- The sizes of a channel may be set. -/
theorem HoldsParameters.putParameter (hholds : HoldsParameters memory pd) {c : ℤ} (hc : 0 ≤ c)
    (hlt : c < maximumStiov2Services) (p : Parameter) :
    HoldsParameters memory (pd.putParameter c p) where
  written_lt place hplace := by
    rw [ServerPd.written_putParameter, List.mem_append] at hplace
    rcases hplace with hbefore | hnew
    · exact hholds.written_lt place hbefore
    · simp only [List.mem_cons, List.not_mem_nil, or_false] at hnew
      rcases hnew with rfl | rfl | rfl | rfl <;> exact ⟨hc, hlt⟩
  beside_eq k hk := by
    unfold maximumStiov2Services at hlt
    have hne : ∀ table : Table, k ≠ table.start + c := by
      intro table
      obtain ⟨j, hj⟩ := table.start_eq
      omega
    rw [pd.words_putParameter p hne]
    exact hholds.beside_eq k hk
  holds i hi hilt := by
    by_cases heq : i = c
    · subst heq
      exact ⟨p, ServerPd.entry_putParameter_self i p⟩
    · obtain ⟨p', hp'⟩ := hholds.holds i hi hilt
      refine ⟨p', fun table ↦ ?_⟩
      rw [ServerPd.entry_putParameter_of_ne ⟨hc, hlt⟩ ⟨hi, hilt⟩ heq, hp']

/-- The constructor sets each channel to the default sizes. -/
theorem newServerPd_eq :
    newServerPd memory = ([0, 1, 2, 3] : List ℤ).foldl
      (fun pd i ↦ pd.putParameter i defaultParameter) ⟨false, memory, []⟩ :=
  rfl

theorem holdsParameters_new : HoldsParameters memory (newServerPd memory) where
  written_lt := by
    change ∀ place ∈ (newServerPd fun _ ↦ 0).written, _
    decide
  beside_eq k hk := by
    have hne : ∀ c : ℤ, 0 ≤ c → c < 4 → ∀ table : Table, k ≠ table.start + c := by
      intro c hc hlt table
      obtain ⟨j, hj⟩ := table.start_eq
      omega
    rw [newServerPd_eq]
    simp only [List.foldl_cons, List.foldl_nil]
    rw [ServerPd.words_putParameter _ _ (hne 3 (by decide) (by decide)),
      ServerPd.words_putParameter _ _ (hne 2 (by decide) (by decide)),
      ServerPd.words_putParameter _ _ (hne 1 (by decide) (by decide)),
      ServerPd.words_putParameter _ _ (hne 0 (by decide) (by decide))]
  holds c hc hlt := by
    refine ⟨defaultParameter, fun table ↦ ?_⟩
    unfold maximumStiov2Services at hlt
    obtain rfl | rfl | rfl | rfl : c = 0 ∨ c = 1 ∨ c = 2 ∨ c = 3 := by omega
    all_goals cases table <;> rfl

/-! ### Runs -/

/-- A call that does not name the channel past the last keeps the parameters in the tables. -/
theorem HoldsParameters.setupCall {call : SetupCall} {pd' : ServerPd}
    (hholds : HoldsParameters memory pd) (hwithin : WithinChannels pd call)
    (hcall : StreamioV2.setupCall pd call = some pd') : HoldsParameters memory pd' := by
  cases call with
  | start =>
    cases hcall
    exact hholds.start
  | setParameter channel diskbuf netbuf =>
    cases hcall
    by_cases hpasses : pd.alreadyStarted = false ∧
        (0 ≤ channel ∧ channel ≤ maximumStiov2Services) ∧ SizesPass diskbuf netbuf
    · obtain ⟨hstarted, ⟨hc, hle⟩, hpass⟩ := hpasses
      obtain ⟨p, -, heq⟩ := pd.setParameter_of_pass hstarted hc hle hpass
      have hne : channel ≠ maximumStiov2Services := fun hlast ↦ hwithin ⟨hstarted, hlast, hpass⟩
      rw [heq]
      exact hholds.putParameter hc (by omega) p
    · rw [pd.setParameter_of_not_pass hpasses]
      exact hholds

/-- In the tables of a server that has not been started, a call keeps what it is to keep exactly
when it does not name the channel past the last. -/
theorem callKeeps_iff (hholds : HoldsParameters memory pd) (call : SetupCall) :
    CallKeeps memory pd call ↔ WithinChannels pd call := by
  cases call with
  | start => exact iff_of_true hholds.start.tablesFit trivial
  | setParameter channel diskbuf netbuf =>
    constructor
    · rintro ⟨-, hfit⟩ ⟨hstarted, rfl, hpass⟩
      obtain ⟨p, -, heq⟩ := pd.setParameter_of_pass hstarted (by decide) (Int.le_refl _) hpass
      rw [heq] at hfit
      have hmem : (Table.diskBufsize, maximumStiov2Services) ∈
          (pd.putParameter maximumStiov2Services p).written := by
        rw [pd.written_putParameter]
        exact List.mem_append_right _ List.mem_cons_self
      exact absurd (hfit.written_lt _ hmem).2 (lt_irrefl _)
    · intro hwithin
      refine ⟨fun hzero ↦ ?_, (hholds.setupCall hwithin rfl).tablesFit⟩
      by_cases hpasses : pd.alreadyStarted = false ∧
          (0 ≤ channel ∧ channel ≤ maximumStiov2Services) ∧ SizesPass diskbuf netbuf
      · obtain ⟨p, -, heq⟩ := pd.setParameter_of_pass hpasses.1 hpasses.2.1.1 hpasses.2.1.2
          hpasses.2.2
        rw [heq] at hzero
        exact absurd hzero one_ne_zero
      · rw [pd.setParameter_of_not_pass hpasses]

/-- The tables keep the sizes of the channels along a run exactly when no call that passes the other
checks names the channel past the last. -/
theorem channelsKept_iff (memory : ℤ → ℤ) (calls : List SetupCall) :
    ChannelsKept memory calls ↔
      Meets setupCall WithinChannels (newServerPd memory) calls := by
  unfold ChannelsKept
  rw [and_iff_right holdsParameters_new.tablesFit]
  exact meets_iff_of_invariant (fun pd call hholds ↦ callKeeps_iff hholds call)
    (fun pd call pd' hholds ↦ hholds.setupCall) holdsParameters_new calls

/-- Channel `4` with `4096` bytes for both buffers. -/
theorem not_channelsKept_past_last :
    ¬ChannelsKept (fun _ ↦ 0) [.setParameter 4 4096 4096] := by
  intro hkept
  have hplace := hkept.2.1.2.written_lt (.diskBufsize, 4) (by decide)
  exact absurd hplace.2 (by decide)

end Katmai.StreamioV2
