import Tsuzuri.CoverWitness
import Tsuzuri.LastUseSound
import Tsuzuri.FrontendRuns
import Tsuzuri.IntervalResults
import Tsuzuri.FixingSound
import Tsuzuri.UnionValueSound
import Tsuzuri.ArenaSound
import Tsuzuri.HashMapSound
import Tsuzuri.OrderedMap
import Tsuzuri.OrderedSetSound
import Tsuzuri.JsonMatches
import Tsuzuri.JsonWriterSound
import Tsuzuri.CborOrder
import Tsuzuri.RegexFirst
import Tsuzuri.RegexAgree
import Tsuzuri.SoftCastSound
import Tsuzuri.SoftFused
import Tsuzuri.DataChannelSound
import Tsuzuri.RwMutexSound
import Tsuzuri.SyncSound
import Tsuzuri.RunQueueSound
import Tsuzuri.RegistrySelect
import Tsuzuri.LexerTiles
import Tsuzuri.TimersRuns
import Tsuzuri.ConstantsRuns
import Tsuzuri.ConstantValues
import Tsuzuri.RecursiveMemo
import Tsuzuri.GraphPaths
import Tsuzuri.ComponentOrder
import Tsuzuri.BigIntSound
import Tsuzuri.SelectOrder
import Tsuzuri.Retention
import Tsuzuri.FieldOrder
import Tsuzuri.RegexRanges
import Tsuzuri.RegexSafe
import Tsuzuri.Sha256Sound
import Tsuzuri.BuildKeys
