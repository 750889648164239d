import DpdkStudy.Lib.CText

/-!
# Configuration

The configuration of the program (`controlplane/config.c`): the defaults,
and the command line over them. An option is recognised only where a value
follows it, a value that is no number counts as zero, and what is no option
is passed over. The one check is that there are tenants and rules; nothing
compares their numbers with the sizes of the tables.
-/

namespace TenantQos

open CText

/-- **The configuration** (`struct dp_config`). -/
structure DpConfig where
  portmask : UInt32
  rxQueues : UInt16
  txQueues : UInt16
  tenantCount : UInt32
  maxRules : UInt32
  mbufCount : UInt32
  mbufCacheSize : UInt32
  tscHz : UInt64
  reportIntervalTsc : UInt64
  rulesPath : String
deriving DecidableEq, Repr

/-- `dp_config_defaults`, at the frequency `rte_get_tsc_hz` answers. -/
def dpConfigDefaults (tscHz : UInt64) : DpConfig where
  portmask := 0x1
  rxQueues := 1
  txQueues := 1
  tenantCount := 4
  maxRules := 1024
  mbufCount := 8192
  mbufCacheSize := 256
  tscHz := tscHz
  reportIntervalTsc := 5 * tscHz
  rulesPath := "rules.csv"

/-- The loop of `dp_config_parse` over the arguments that are left. -/
def dpConfigArgs (config : DpConfig) : List String → DpConfig
  | [] => config
  | [_] => config
  | arg :: value :: rest =>
    if arg = "--portmask" then
      dpConfigArgs { config with portmask := (strtoul 16 value).toUInt32 } rest
    else if arg = "--tenants" then
      dpConfigArgs { config with tenantCount := (strtoul 10 value).toUInt32 } rest
    else if arg = "--rules" then
      dpConfigArgs { config with maxRules := (strtoul 10 value).toUInt32 } rest
    else if arg = "--rxq" then
      dpConfigArgs { config with rxQueues := (strtoul 10 value).toUInt16 } rest
    else if arg = "--txq" then
      dpConfigArgs { config with txQueues := (strtoul 10 value).toUInt16 } rest
    else if arg = "--rules-file" then dpConfigArgs { config with rulesPath := value } rest
    else if arg = "--stats-interval" then
      dpConfigArgs { config with reportIntervalTsc := strtoul 10 value * config.tscHz } rest
    else dpConfigArgs config (value :: rest)

/-- **`dp_config_parse`**: the configuration of a command line, and none
where it is refused. -/
def dpConfigParse (tscHz : UInt64) (argv : List String) : Option DpConfig :=
  let config := dpConfigArgs (dpConfigDefaults tscHz) argv
  if config.tenantCount = 0 ∨ config.maxRules = 0 then none else some config

example : (dpConfigParse 1000000000 ["--tenants", "5000", "--rules"]).map DpConfig.tenantCount
    = some 5000 := by
  decide

end TenantQos
