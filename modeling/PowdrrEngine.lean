import PowdrrEngine.CompactionRows
import PowdrrEngine.ServingExactLookup
import PowdrrEngine.ServingParallel
import PowdrrEngine.ServingRowOrder
import PowdrrEngine.RaftSerial
import PowdrrEngine.RaftRefines
import PowdrrEngine.IngestBatch
import PowdrrEngine.IngestActor
import PowdrrEngine.IngestNumbers
import PowdrrEngine.IngestDocuments
import PowdrrEngine.SqlReading
import PowdrrEngine.SafetyAlias
import PowdrrEngine.SafetyEngines
import PowdrrEngine.SafetyPublication
import PowdrrEngine.SafetyEpochs
import PowdrrEngine.SafetyLeases
import PowdrrEngine.DynamoUpdates
import PowdrrEngine.DynamoContinue
import PowdrrEngine.DynamoScanPaging
import PowdrrEngine.DynamoAuth
import PowdrrEngine.RedisWire
import PowdrrEngine.DynamoServiceStore
import PowdrrEngine.SearchTargets
import PowdrrEngine.MongoWire
