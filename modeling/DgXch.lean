import DgXch.BlockWhole
import DgXch.CoinReports
import DgXch.TableUses
import DgXch.GeneratorLength
import DgXch.LinePoints
import DgXch.MerkleSound
import DgXch.MmapCrash
import DgXch.PlotQuality
import DgXch.PotIterations
import DgXch.PrevTxContext
import DgXch.RangeValidator
import DgXch.UnfinishedCache
import DgXch.VdfMemo
import DgXch.WireFormat
import DgXch.BlockTotals
